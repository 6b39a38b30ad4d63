import BlockDiagram.Document.Lowering
import BlockDiagram.Proofs.Draft.Production
/-! Lowered formulas: the blocks of a draft that stand for a formula, and how lowering brings them
about. -/

namespace BlockDiagram

open Call Draft

variable {α : Type} [Scalar α]

mutual

/-- The draft has blocks that compute the formula on the variable `v`. -/
def Formula.Carried (d : Draft α) : Formula α → String → Prop
  | .name w, v | .var w, v => w = v
  | .number x, v | .const x, v => d.Derived v ∧ d.Produces (.constant x) [] v
  | .apply op args, v => d.Derived v ∧ ∃ ws, d.Produces op.kind ws v ∧ Formula.AllCarried d args ws

def Formula.AllCarried (d : Draft α) : List (Formula α) → List String → Prop
  | [], ws => ws = []
  | f :: rest, ws => ∃ w ws', ws = w :: ws' ∧ f.Carried d w ∧ Formula.AllCarried d rest ws'

end

/-- The draft has blocks that compute the formula of the variable `v` itself. -/
def Formula.Defines (d : Draft α) : Formula α → String → Prop
  | .number x, v | .const x, v => d.Produces (.constant x) [] v
  | .name w, v | .var w, v => d.Produces .sum [w] v
  | .apply op args, v => ∃ ws, d.Produces op.kind ws v ∧ Formula.AllCarried d args ws

/-- What is computed in `d` is computed in `d'` in the same way. -/
structure Draft.Retains (d d' : Draft α) : Prop where
  derived : ∀ v, d.Derived v → d'.Derived v
  produces : ∀ k ws v, d.Produces k ws v → d'.Produces k ws v

namespace Draft

variable {d d' : Draft α}

theorem Grows.retains {made : List String} (h : d.Grows made d') : d.Retains d' :=
  ⟨fun _ hv => hv.grows h, fun _ _ _ hv => hv.grows h⟩

/-- A block that produces nothing may change. -/
theorem retains_put {id : BlockId} {b b₀ : DraftBlock α} (hb₀ : d.blocks[id.index]? = some b₀)
    (hopen : b₀.output = none) : d.Retains (d.put id b) := by
  refine ⟨fun v hv => hv, ?_⟩
  rintro k ws v ⟨i, c, r, hc, hkind, hinputs, hr, hname⟩
  have hi : i ≠ id.index := by
    rintro rfl
    cases hb₀.symm.trans hc
    rw [hopen] at hr
    cases hr
  exact ⟨i, c, r, by rw [put_block_ne hi]; exact hc, hkind, hinputs, hr,
    by rw [put_nameOf?]; exact hname⟩

end Draft

namespace Formula

variable {d d' : Draft α}

mutual

theorem Carried.retained (h : d.Retains d') :
    ∀ (f : Formula α) {v : String}, f.Carried d v → f.Carried d' v
  | .name _, _, hf | .var _, _, hf => hf
  | .number _, _, hf | .const _, _, hf => ⟨h.derived _ hf.1, h.produces _ _ _ hf.2⟩
  | .apply _ args, _, ⟨hv, ws, hws, hargs⟩ =>
      ⟨h.derived _ hv, ws, h.produces _ ws _ hws, AllCarried.retained h args hargs⟩

theorem AllCarried.retained (h : d.Retains d') :
    ∀ (fs : List (Formula α)) {ws : List String}, AllCarried d fs ws → AllCarried d' fs ws
  | [], _, hnil => hnil
  | f :: rest, _, ⟨w, ws', heq, hf, hrest⟩ =>
      ⟨w, ws', heq, Carried.retained h f hf, AllCarried.retained h rest hrest⟩

end

theorem Defines.retained (h : d.Retains d') {f : Formula α} {v : String} (hf : f.Defines d v) :
    f.Defines d' v := by
  cases f with
  | number x => exact h.produces _ _ v hf
  | const x => exact h.produces _ _ v hf
  | name w => exact h.produces _ _ v hf
  | var w => exact h.produces _ _ v hf
  | apply op args =>
      obtain ⟨ws, hws, hargs⟩ := hf
      exact ⟨ws, h.produces _ ws v hws, AllCarried.retained h args hargs⟩

end Formula

namespace Document

variable {d d' : Draft α}

theorem deriveSignal_ok {owner v : String} {used used' : Nat}
    (h : (deriveSignal owner used).run d = .ok (v, used') d') :
    d.Grows [] d' ∧ d'.Derived v ∧ v ∉ d.varIds := by
  obtain ⟨d₀, d₀', hget, hcalls⟩ := run_bind_ok.mp h
  cases hget
  obtain ⟨id, d₁, hsignal, hpure⟩ := run_bind_ok.mp hcalls
  cases hpure
  have hgrows := grows_addSignal hsignal
  obtain ⟨hfresh, -, rfl⟩ := addSignal_ok hsignal
  exact ⟨hgrows, ⟨_, Array.getElem?_push_size⟩, hfresh⟩

omit [Scalar α] in
theorem addProducer_ok {β : Type} {name output : String} {k : BlockKind α}
    {bindSlots : BlockId → Drafting α β} {x : β}
    (h : (addProducer name k output bindSlots).run d = .ok x d') :
    ∃ block d₁ d₂ b, (addBlock name k).run d = .ok block d₁ ∧ (bindSlots block).run d₁ = .ok x d₂ ∧
      d₂.blocks[block.index]? = some b ∧
      d' = d₂.put block { b with output := some (.variable output) } := by
  obtain ⟨block, d₁, hblock, hcalls⟩ := run_bind_ok.mp h
  obtain ⟨y, d₂, hslots, hlast⟩ := run_bind_ok.mp hcalls
  obtain ⟨u, d₃, houtput, hpure⟩ := run_bind_ok.mp hlast
  cases hpure
  obtain ⟨b, hb, rfl⟩ := bindOutput_ok houtput
  exact ⟨block, d₁, d₂, b, hblock, hslots, hb, rfl⟩

/-- What binding the slots of a block to formulas comes to. Whatever that block becomes, the rest of
the draft has only grown. -/
structure BindsArguments (id : BlockId) (b : DraftBlock α) (args : List (Formula α))
    (ws : List String) (d d' : Draft α) : Prop where
  block : d'.blocks[id.index]? = some { b with inputs := b.inputs ++ slots ws }
  around : ∀ c : DraftBlock α, (∀ s, c.output ≠ some (.signal s)) →
    (d.put id c).Grows [] (d'.put id c) ∧ Formula.AllCarried (d'.put id c) args ws

theorem BindsArguments.produces {name output : String} {k : BlockKind α} {block : BlockId}
    {d₁ d₂ : Draft α} (hblock : (addBlock name k).run d = .ok block d₁) (args : List (Formula α))
    (hargs : ∀ b, d₁.blocks[block.index]? = some b → b.inputs.length = 0 → b.output = none →
      ∃ ws, BindsArguments block b args ws d₁ d₂) {b : DraftBlock α}
    (hb : d₂.blocks[block.index]? = some b) :
    d.Grows [output] (d₂.put block { b with output := some (.variable output) }) ∧
      ∃ ws, (d₂.put block { b with output := some (.variable output) }).Produces k ws output ∧
        Formula.AllCarried (d₂.put block { b with output := some (.variable output) }) args ws := by
  obtain ⟨-, ⟨b₀, hb₀, hkind, hinputs, hopen⟩, -⟩ := addBlock_ok hblock
  obtain ⟨ws, hbinds⟩ := hargs b₀ hb₀ (by rw [hinputs]; rfl) hopen
  cases hb.symm.trans hbinds.block
  obtain ⟨hgrows, hproduces⟩ := addBlock_produces hblock { b₀ with
      inputs := b₀.inputs ++ slots ws, output := some (.variable output) } ws output
    hkind (by rw [hinputs]; rfl) rfl rfl
  obtain ⟨hrest, hall⟩ := hbinds.around { b₀ with
    inputs := b₀.inputs ++ slots ws, output := some (.variable output) } (by rintro s ⟨⟩)
  exact ⟨hgrows.trans hrest, ws, hproduces.grows hrest, hall⟩

theorem bindsArguments_nil {id : BlockId} {b : DraftBlock α} (hb : d.blocks[id.index]? = some b) :
    BindsArguments id b [] [] d d where
  block := by rw [slots, List.map_nil, List.append_nil]; exact hb
  around := fun c _ => ⟨.refl _, rfl⟩

theorem BindsArguments.cons {id : BlockId} {b : DraftBlock α} {f : Formula α} {rest : List (Formula α)}
    {w : String} {ws : List String} {d₁ : Draft α} (hb : d.blocks[id.index]? = some b)
    (hopen : b.output = none) (hgrows : d.Grows [] d₁) (hf : f.Carried d₁ w)
    (hrest : BindsArguments id { b with inputs := b.inputs ++ [some (.variable w)] } rest ws
      (d₁.put id { b with inputs := b.inputs ++ [some (.variable w)] }) d') :
    BindsArguments id b (f :: rest) (w :: ws) d d' := by
  constructor
  · rw [hrest.block]
    simp only [slots, List.map_cons, List.append_assoc, List.singleton_append]
  · intro c hc
    obtain ⟨hgrows', hall⟩ := hrest.around c hc
    rw [put_put] at hgrows'
    have hcarried := Formula.Carried.retained (retains_put (hgrows.blocks _ b hb) hopen (b := c)) f hf
    exact ⟨(hgrows.put hb hopen hc).trans hgrows', w, ws, rfl,
      Formula.Carried.retained hgrows'.retains f hcarried, hall⟩

mutual

theorem lowerArgument_ok {owner : String} : ∀ (f : Formula α) {used used' : Nat} {v : String}
    {d d' : Draft α}, (lowerArgument owner f used).run d = .ok (v, used') d' →
      d.Grows [] d' ∧ f.Carried d' v
  | .name w, _, _, _, d, _, h | .var w, _, _, _, d, _, h => by
      cases h
      exact ⟨.refl d, rfl⟩
  | .number x, _, _, _, _, _, h | .const x, _, _, _, _, _, h => by
      obtain ⟨⟨v, n⟩, d₁, hderive, hproducer⟩ := run_bind_ok.mp h
      obtain ⟨hgrows, hderived, hfresh⟩ := deriveSignal_ok hderive
      obtain ⟨block, d₂, d₃, b, hblock, hslots, hb, rfl⟩ := addProducer_ok hproducer
      cases hslots
      obtain ⟨hgrows', ws, hproduces, hws⟩ := BindsArguments.produces hblock []
        (fun _ hb₀ _ _ => ⟨[], bindsArguments_nil hb₀⟩) hb
      cases hws
      exact ⟨(hgrows.trans hgrows').fresh hfresh, hderived.grows hgrows', hproduces⟩
  | .apply op args, _, _, _, _, _, h => by
      obtain ⟨⟨v, n⟩, d₁, hderive, hproducer⟩ := run_bind_ok.mp h
      obtain ⟨hgrows, hderived, hfresh⟩ := deriveSignal_ok hderive
      obtain ⟨block, d₂, d₃, b, hblock, hslots, hb, rfl⟩ := addProducer_ok hproducer
      obtain ⟨n', d₄, hargs, hpure⟩ := run_bind_ok.mp hslots
      cases hpure
      obtain ⟨hgrows', ws, hproduces, hws⟩ := BindsArguments.produces hblock args
        (fun _ hb₀ hlength hopen => lowerArguments_ok args hargs hb₀ hlength hopen) hb
      exact ⟨(hgrows.trans hgrows').fresh hfresh, hderived.grows hgrows', ws, hproduces, hws⟩

theorem lowerArguments_ok {owner : String} {id : BlockId} : ∀ (args : List (Formula α))
    {slot used used' : Nat} {d d' : Draft α} {b : DraftBlock α},
      (lowerArguments owner id slot args used).run d = .ok used' d' →
      d.blocks[id.index]? = some b → b.inputs.length = slot → b.output = none →
      ∃ ws, BindsArguments id b args ws d d'
  | [], _, _, _, _, _, _, h, hb, _, _ => by
      cases h
      exact ⟨[], bindsArguments_nil hb⟩
  | f :: rest, _, _, _, _, _, _, h, hb, hslot, hopen => by
      obtain ⟨⟨w, n⟩, d₁, hfirst, hcalls⟩ := run_bind_ok.mp h
      obtain ⟨u, d₂, hbind, hrest⟩ := run_bind_ok.mp hcalls
      obtain ⟨hgrows, hf⟩ := lowerArgument_ok f hfirst
      have hb₁ := hgrows.blocks _ _ hb
      obtain ⟨b₁, hb₁', rfl⟩ := bindInput_ok hbind
      cases hb₁.symm.trans hb₁'
      rw [bind_next hslot] at hrest
      obtain ⟨ws, hws⟩ := lowerArguments_ok rest hrest
        (put_block_self (Array.getElem?_eq_some_iff.mp hb₁).1)
        (by rw [List.length_append, List.length_singleton, hslot]) hopen
      exact ⟨w :: ws, .cons hb hopen hgrows hf hws⟩

end

/-- The variable that a formula is lowered for gets a producer, and no other variable does. -/
theorem lowerFormula_ok {owner : String} {f : Formula α} {u : Unit}
    (h : (lowerFormula owner f).run d = .ok u d') : d.Grows [owner] d' ∧ f.Defines d' owner := by
  have hconst : ∀ {name : String} {x : α},
      (addProducer name (.constant x) owner fun _ => pure ()).run d = .ok u d' →
      d.Grows [owner] d' ∧ d'.Produces (.constant x) [] owner := by
    intro name x hproducer
    obtain ⟨block, d₁, d₂, b, hblock, hslots, hb, rfl⟩ := addProducer_ok hproducer
    cases hslots
    obtain ⟨hgrows, ws, hproduces, hws⟩ := BindsArguments.produces hblock []
      (fun _ hb₀ _ _ => ⟨[], bindsArguments_nil hb₀⟩) hb
    cases hws
    exact ⟨hgrows, hproduces⟩
  have hcopy : ∀ {name w : String}, (addProducer name (.sum : BlockKind α) owner fun block =>
        bindInput block 0 (.variable w)).run d = .ok u d' →
      d.Grows [owner] d' ∧ d'.Produces .sum [w] owner := by
    intro name w hproducer
    obtain ⟨block, d₁, d₂, b, hblock, hslots, hb, rfl⟩ := addProducer_ok hproducer
    obtain ⟨hgrows, ws, hproduces, hws⟩ := BindsArguments.produces hblock [.name w]
      (fun b₀ hb₀ hlength hopen => by
        obtain ⟨b₁, hb₁, rfl⟩ := bindInput_ok hslots
        cases hb₀.symm.trans hb₁
        rw [bind_next hlength]
        exact ⟨[w], .cons hb₀ hopen (.refl _) rfl
          (bindsArguments_nil (put_block_self (Array.getElem?_eq_some_iff.mp hb₀).1))⟩) hb
    obtain ⟨w', ws', rfl, rfl, rfl⟩ := hws
    exact ⟨hgrows, hproduces⟩
  cases f with
  | number x => exact hconst h
  | const x => exact hconst h
  | name w => exact hcopy h
  | var w => exact hcopy h
  | apply op args =>
      obtain ⟨block, d₁, d₂, b, hblock, hslots, hb, rfl⟩ := addProducer_ok h
      obtain ⟨n, d₃, hargs, hpure⟩ := run_bind_ok.mp hslots
      cases hpure
      exact BindsArguments.produces hblock args
        (fun _ hb₀ hlength hopen => lowerArguments_ok args hargs hb₀ hlength hopen) hb

end Document

end BlockDiagram
