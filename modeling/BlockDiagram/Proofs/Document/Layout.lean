import BlockDiagram.Proofs.Document.Dependence
import BlockDiagram.Proofs.Document.Formulas
import BlockDiagram.Proofs.Draft.Needs
/-! Layout: where lowering puts the blocks of formulas. A block stands before those of its arguments,
and the blocks of one argument before those of the next. -/

namespace BlockDiagram

open Call Draft

variable {α : Type}

/-- The kind of block at the root of a formula that defines a variable, and the formulas it reads. A
reference becomes a sum of one term. -/
def Formula.head : Formula α → BlockKind α × List (Formula α)
  | .number x | .const x => (.constant x, [])
  | .name w => (.sum, [.name w])
  | .var w => (.sum, [.var w])
  | .apply op args => (op.kind, args)

theorem Formula.mentions_head (f : Formula α) : mentionsAmong f.head.2 = f.mentions := by
  cases f <;> simp [head, mentions, mentionsAmong]

/-- The root of a formula is neither an input nor an output. -/
theorem Formula.head_inner (f : Formula α) : f.head.1.isInput = false ∧ f.head.1.isOutput = false := by
  cases f with
  | apply op args => cases op <;> exact ⟨rfl, rfl⟩
  | _ => exact ⟨rfl, rfl⟩

namespace Draft

variable {d d' : Draft α}

@[simp] theorem put_size {id : BlockId} {b : DraftBlock α} :
    (d.put id b).blocks.size = d.blocks.size :=
  Array.size_setIfInBounds

variable [Scalar α]

/-- The blocks in the positions from `i` up to `j` are those of the formulas, and the variables carry
what the formulas compute. -/
inductive Lays (d : Draft α) : List (Formula α) → List String → Nat → Nat → Prop
  | nil (i : Nat) : Lays d [] [] i i
  | reference {f : Formula α} {fs : List (Formula α)} {w : String} {vs : List String} {i j : Nat} :
      f = .name w ∨ f = .var w → Lays d fs vs i j → Lays d (f :: fs) (w :: vs) i j
  | literal {f : Formula α} {fs : List (Formula α)} {x : α} {v : String} {vs : List String}
      {i j : Nat} : f = .number x ∨ f = .const x → d.Derived v → d.Puts (.constant x) [] v i →
      Lays d fs vs (i + 1) j → Lays d (f :: fs) (v :: vs) i j
  | apply {op : Operator} {args fs : List (Formula α)} {us : List String} {v : String}
      {vs : List String} {i k j : Nat} : d.Derived v → d.Puts op.kind us v i →
      Lays d args us (i + 1) k → Lays d fs vs k j → Lays d (.apply op args :: fs) (v :: vs) i j

namespace Lays

variable {fs : List (Formula α)} {vs : List String} {i j k : Nat}

theorem length_eq (h : d.Lays fs vs i j) : vs.length = fs.length := by
  induction h with
  | nil i => rfl
  | reference hf hrest ih => simp [ih]
  | literal hf hv hputs hrest ih => simp [ih]
  | apply hv hputs hargs hrest ihargs ih => simp [ih]

theorem of_nil (h : d.Lays [] vs i j) : vs = [] ∧ i = j := by
  cases h
  exact ⟨rfl, rfl⟩

theorem le (h : d.Lays fs vs i j) : i ≤ j := by
  induction h with
  | nil i => exact Nat.le_refl i
  | reference hf hrest ih => exact ih
  | literal hf hv hputs hrest ih => omega
  | apply hv hputs hargs hrest ihargs ih => omega

/-- What carries a formula is named by it, or of the library's own making. -/
theorem carried (h : d.Lays fs vs i j) : ∀ v ∈ vs, v ∈ Formula.mentionsAmong fs ∨ d.Derived v := by
  induction h with
  | nil i => exact nofun
  | @reference f fs w vs i j hf hrest ih =>
      refine List.forall_mem_cons.mpr ⟨.inl (List.mem_append_left _ ?_), fun v hv =>
        (ih v hv).imp_left (List.mem_append_right _)⟩
      rcases hf with rfl | rfl <;> simp [Formula.mentions]
  | literal hf hv hputs hrest ih =>
      exact List.forall_mem_cons.mpr ⟨.inr hv, fun v hv => (ih v hv).imp_left (List.mem_append_right _)⟩
  | apply hv hputs hargs hrest ihargs ih =>
      exact List.forall_mem_cons.mpr ⟨.inr hv, fun v hv => (ih v hv).imp_left (List.mem_append_right _)⟩

/-- Each of the blocks of formulas is the root of one, and reads what formulas name or what the library
has made. -/
theorem block (h : d.Lays fs vs i j) {p : Nat} (hi : i ≤ p) (hj : p < j) :
    ∃ (g : Formula α) (ws : List String) (v : String), d.Puts g.head.1 ws v p ∧
      ∀ w ∈ ws, w ∈ Formula.mentionsAmong fs ∨ d.Derived w := by
  induction h with
  | nil i => exact absurd hj (Nat.not_lt.mpr hi)
  | reference hf hrest ih =>
      obtain ⟨g, ws, v, hputs, hreads⟩ := ih hi hj
      exact ⟨g, ws, v, hputs, fun w hw => (hreads w hw).imp_left (List.mem_append_right _)⟩
  | @literal f fs x v vs i j hf hv hputs hrest ih =>
      rcases Nat.eq_or_lt_of_le hi with rfl | hi
      · exact ⟨.number x, [], v, hputs, nofun⟩
      · obtain ⟨g, ws, v, hputs, hreads⟩ := ih hi hj
        exact ⟨g, ws, v, hputs, fun w hw => (hreads w hw).imp_left (List.mem_append_right _)⟩
  | @apply op args fs us v vs i k j hv hputs hargs hrest ihargs ih =>
      rcases Nat.eq_or_lt_of_le hi with rfl | hi
      · exact ⟨.apply op args, us, v, hputs, fun w hw =>
          (hargs.carried w hw).imp_left (List.mem_append_left _)⟩
      · rcases Nat.lt_or_ge p k with hk | hk
        · obtain ⟨g, ws, v, hputs, hreads⟩ := ihargs hi hk
          exact ⟨g, ws, v, hputs, fun w hw => (hreads w hw).imp_left (List.mem_append_left _)⟩
        · obtain ⟨g, ws, v, hputs, hreads⟩ := ih hk hj
          exact ⟨g, ws, v, hputs, fun w hw => (hreads w hw).imp_left (List.mem_append_right _)⟩

theorem cons {f : Formula α} {v : String} (h : d.Lays [f] [v] i k) (hrest : d.Lays fs vs k j) :
    d.Lays (f :: fs) (v :: vs) i j := by
  cases h with
  | reference hf hnil =>
      cases hnil
      exact .reference hf hrest
  | literal hf hv hputs hnil =>
      cases hnil
      exact .literal hf hv hputs hrest
  | apply hv hputs hargs hnil =>
      cases hnil
      exact .apply hv hputs hargs hrest

/-- Only the blocks from position `i` on, and the derived variables, have a part in it. -/
theorem mono (h : d.Lays fs vs i j) (hderived : ∀ v, d.Derived v → d'.Derived v)
    (hputs : ∀ kind ws v p, i ≤ p → d.Puts kind ws v p → d'.Puts kind ws v p) : d'.Lays fs vs i j := by
  induction h with
  | nil i => exact .nil i
  | reference hf hrest ih => exact .reference hf (ih hputs)
  | literal hf hv hput hrest ih =>
      refine .literal hf (hderived _ hv) (hputs _ _ _ _ (Nat.le_refl _) hput) (ih ?_)
      exact fun kind ws v p hp => hputs kind ws v p (Nat.le_of_succ_le hp)
  | apply hv hput hargs hrest ihargs ih =>
      refine .apply (hderived _ hv) (hputs _ _ _ _ (Nat.le_refl _) hput) (ihargs ?_) (ih ?_)
      · exact fun kind ws v p hp => hputs kind ws v p (Nat.le_of_succ_le hp)
      · exact fun kind ws v p hp => hputs kind ws v p (Nat.le_of_succ_le (Nat.le_trans hargs.le hp))

theorem grows (h : d.Lays fs vs i j) {made : List String} (hgrows : d.Grows made d') :
    d'.Lays fs vs i j :=
  h.mono (fun _ hv => hv.grows hgrows) fun _ _ _ _ _ hputs => hputs.grows hgrows

end Lays

omit [Scalar α] in
/-- Everything but one block is as it was, or new. -/
structure GrowsBut (id : BlockId) (d d' : Draft α) : Prop where
  signals : ∀ (i : Nat) (s : Signal α), d.signals[i]? = some s → d'.signals[i]? = some s
  blocks : ∀ (i : Nat) (b : DraftBlock α), i ≠ id.index → d.blocks[i]? = some b →
    d'.blocks[i]? = some b

namespace GrowsBut

variable {id : BlockId}

omit [Scalar α] in
theorem put (d : Draft α) (b : DraftBlock α) : GrowsBut id d (d.put id b) :=
  ⟨fun _ _ hs => hs, fun _ _ hi hb => (put_block_ne hi).trans hb⟩

omit [Scalar α] in
theorem trans {d'' : Draft α} (h : GrowsBut id d d') (h' : GrowsBut id d' d'') : GrowsBut id d d'' :=
  ⟨fun i s hs => h'.signals i s (h.signals i s hs),
    fun i b hi hb => h'.blocks i b hi (h.blocks i b hi hb)⟩

/-- The blocks behind the one that changes stay where they are. -/
theorem lays (h : GrowsBut id d d') {fs : List (Formula α)} {vs : List String} {i j : Nat}
    (hid : id.index < i) (hlays : d.Lays fs vs i j) : d'.Lays fs vs i j := by
  refine hlays.mono ?_ ?_
  · rintro v ⟨p, hp⟩
    exact ⟨p, h.signals p _ hp⟩
  · rintro kind ws v p hp ⟨b, r, hb, hkind, hinputs, hr, hname⟩
    refine ⟨b, r, h.blocks p b (Nat.ne_of_gt (Nat.lt_of_lt_of_le hid hp)) hb, hkind, hinputs, hr, ?_⟩
    rcases r with s | w
    · obtain ⟨x, hx, rfl⟩ := Option.map_eq_some_iff.mp hname
      exact Option.map_eq_some_iff.mpr ⟨x, h.signals _ x hx, rfl⟩
    · exact hname

end GrowsBut

end Draft

namespace Document

variable {d d' : Draft α}

variable [Scalar α]

theorem BindsArguments.growsBut {id : BlockId} {b : DraftBlock α} {args : List (Formula α)}
    {ws : List String} (h : BindsArguments id b args ws d d') : GrowsBut id d d' := by
  have hgrows := (h.around { b with output := none } nofun).1
  refine ⟨hgrows.signals, fun i c hi hc => ?_⟩
  have hkept := hgrows.blocks i c ((put_block_ne hi).trans hc)
  rwa [put_block_ne hi] at hkept

theorem deriveSignal_blocks {owner : String} {used : Nat} {p : String × Nat}
    (h : (deriveSignal owner used).run d = .ok p d') : d'.blocks = d.blocks := by
  obtain ⟨d₀, d₀', hget, hcalls⟩ := run_bind_ok.mp h
  cases hget
  obtain ⟨id, d₁, hsignal, hpure⟩ := run_bind_ok.mp hcalls
  cases hpure
  obtain ⟨-, -, rfl⟩ := addSignal_ok hsignal
  rfl

/-- Binding the slots of a block to formulas puts their blocks behind all others. -/
structure FillsArguments (id : BlockId) (b : DraftBlock α) (args : List (Formula α))
    (ws : List String) (d d' : Draft α) : Prop where
  block : d'.blocks[id.index]? = some { b with inputs := b.inputs ++ slots ws }
  lays : d'.Lays args ws d.blocks.size d'.blocks.size

/-- A new block that has been given its slots and its output stands in front of its arguments. -/
theorem FillsArguments.puts {name output : String} {k : BlockKind α} {block : BlockId} {d₁ d₂ : Draft α}
    (hblock : (addBlock name k).run d = .ok block d₁) {args : List (Formula α)}
    (hargs : ∀ b, d₁.blocks[block.index]? = some b → b.inputs.length = 0 → b.output = none →
      ∃ ws, FillsArguments block b args ws d₁ d₂) {b : DraftBlock α}
    (hb : d₂.blocks[block.index]? = some b) :
    ∃ ws, (d₂.put block { b with output := some (.variable output) }).Puts k ws output d.blocks.size ∧
      (d₂.put block { b with output := some (.variable output) }).Lays args ws (d.blocks.size + 1)
        (d₂.put block { b with output := some (.variable output) }).blocks.size := by
  obtain ⟨-, ⟨b₀, hb₀, hkind, hinputs, hopen⟩, -⟩ := addBlock_ok hblock
  obtain ⟨hindex, hsize, -⟩ := addBlock_put hblock
  obtain ⟨ws, hfills⟩ := hargs b₀ hb₀ (by rw [hinputs]; rfl) hopen
  cases hb.symm.trans hfills.block
  refine ⟨ws, ⟨{ b₀ with inputs := b₀.inputs ++ slots ws, output := some (.variable output) }, _,
    ?_, hkind, ?_, rfl, rfl⟩, ?_⟩
  · rw [← hindex]
    exact put_block_self (Array.getElem?_eq_some_iff.mp hb).1
  · rw [hinputs, List.nil_append]
  · have hlays := hfills.lays
    rw [hsize] at hlays
    have hbehind : block.index < d.blocks.size + 1 := by omega
    rw [put_size]
    exact (GrowsBut.put d₂ _).lays hbehind hlays

theorem fillsArguments_nil {id : BlockId} {b : DraftBlock α} (hb : d.blocks[id.index]? = some b) :
    FillsArguments id b [] [] d d where
  block := by rw [slots, List.map_nil, List.append_nil]; exact hb
  lays := .nil _

mutual

theorem lowerArgument_lays {owner : String} : ∀ (f : Formula α) {used used' : Nat} {v : String}
    {d d' : Draft α}, (lowerArgument owner f used).run d = .ok (v, used') d' →
      d'.Lays [f] [v] d.blocks.size d'.blocks.size
  | .name w, _, _, _, d, _, h | .var w, _, _, _, d, _, h => by
      cases h
      exact .reference (by simp) (.nil _)
  | .number x, _, _, _, _, _, h | .const x, _, _, _, _, _, h => by
      obtain ⟨hderived, -⟩ := (lowerArgument_ok _ h).2
      obtain ⟨⟨v, n⟩, d₁, hderive, hproducer⟩ := run_bind_ok.mp h
      obtain ⟨block, d₂, d₃, b, hblock, hslots, hb, rfl⟩ := addProducer_ok hproducer
      cases hslots
      obtain ⟨ws, hputs, hlays⟩ := FillsArguments.puts hblock
        (fun _ hb₀ _ _ => ⟨[], fillsArguments_nil hb₀⟩) hb
      rw [deriveSignal_blocks hderive] at hputs hlays
      obtain ⟨rfl, hend⟩ := hlays.of_nil
      rw [← hend]
      exact .literal (by simp) hderived hputs (.nil _)
  | .apply op args, _, _, _, _, _, h => by
      obtain ⟨hderived, -⟩ := (lowerArgument_ok _ h).2
      obtain ⟨⟨v, n⟩, d₁, hderive, hproducer⟩ := run_bind_ok.mp h
      obtain ⟨block, d₂, d₃, b, hblock, hslots, hb, rfl⟩ := addProducer_ok hproducer
      obtain ⟨n', d₄, hargs, hpure⟩ := run_bind_ok.mp hslots
      cases hpure
      obtain ⟨ws, hputs, hlays⟩ := FillsArguments.puts hblock
        (fun _ hb₀ hlength hopen => lowerArguments_lays args hargs hb₀ hlength hopen) hb
      rw [deriveSignal_blocks hderive] at hputs hlays
      exact .apply hderived hputs hlays (.nil _)

theorem lowerArguments_lays {owner : String} {id : BlockId} : ∀ (args : List (Formula α))
    {slot used used' : Nat} {d d' : Draft α} {b : DraftBlock α},
      (lowerArguments owner id slot args used).run d = .ok used' d' →
      d.blocks[id.index]? = some b → b.inputs.length = slot → b.output = none →
      ∃ ws, FillsArguments id b args ws d d'
  | [], _, _, _, _, _, _, h, hb, _, _ => by
      cases h
      exact ⟨[], fillsArguments_nil hb⟩
  | f :: rest, slot, _, _, d, _, b, h, hb, hslot, hopen => by
      obtain ⟨⟨w, n⟩, d₁, hfirst, hcalls⟩ := run_bind_ok.mp h
      obtain ⟨u, d₂, hbind, hrest⟩ := run_bind_ok.mp hcalls
      have hlays := lowerArgument_lays f hfirst
      have hb₁ := (lowerArgument_ok f hfirst).1.blocks _ _ hb
      obtain ⟨b₁, hb₁', rfl⟩ := bindInput_ok hbind
      cases hb₁.symm.trans hb₁'
      rw [bind_next hslot] at hrest
      have hb₂ := put_block_self (b := { b with inputs := b.inputs ++ [some (.variable w)] })
        (Array.getElem?_eq_some_iff.mp hb₁).1
      have hslot₂ : (b.inputs ++ [some (Reference.variable w)]).length = slot + 1 := by
        rw [List.length_append, List.length_singleton, hslot]
      obtain ⟨ws, hfills⟩ := lowerArguments_lays rest hrest hb₂ hslot₂ hopen
      obtain ⟨ws', hbinds⟩ := lowerArguments_ok rest hrest hb₂ hslot₂ hopen
      refine ⟨w :: ws, ?_, ?_⟩
      · rw [hfills.block]
        simp only [slots, List.map_cons, List.append_assoc, List.singleton_append]
      · have hbefore : id.index < d.blocks.size := (Array.getElem?_eq_some_iff.mp hb).1
        have hrestlays := hfills.lays
        rw [put_size] at hrestlays
        exact (((GrowsBut.put d₁ _).trans hbinds.growsBut).lays hbefore hlays).cons hrestlays

end

/-- The root of the formula of a variable comes first. -/
theorem lowerFormula_lays {owner : String} {f : Formula α} {u : Unit}
    (h : (lowerFormula owner f).run d = .ok u d') :
    ∃ ws, d'.Puts f.head.1 ws owner d.blocks.size ∧
      d'.Lays f.head.2 ws (d.blocks.size + 1) d'.blocks.size := by
  have hcopy : ∀ {name w : String} {g : Formula α}, g = .name w ∨ g = .var w →
      (addProducer name (.sum : BlockKind α) owner fun block =>
        bindInput block 0 (.variable w)).run d = .ok u d' →
      ∃ ws, d'.Puts .sum ws owner d.blocks.size ∧
        d'.Lays [g] ws (d.blocks.size + 1) d'.blocks.size := by
    intro name w g hg hproducer
    obtain ⟨block, d₁, d₂, b, hblock, hslots, hb, rfl⟩ := addProducer_ok hproducer
    refine FillsArguments.puts hblock (fun b₀ hb₀ hlength _ => ?_) hb
    obtain ⟨b₁, hb₁, rfl⟩ := bindInput_ok hslots
    cases hb₀.symm.trans hb₁
    rw [bind_next hlength]
    refine ⟨[w], put_block_self (Array.getElem?_eq_some_iff.mp hb₀).1, ?_⟩
    rw [put_size]
    exact .reference hg (.nil _)
  have hconst : ∀ {name : String} {x : α},
      (addProducer name (.constant x) owner fun _ => pure ()).run d = .ok u d' →
      ∃ ws, d'.Puts (.constant x) ws owner d.blocks.size ∧
        d'.Lays [] ws (d.blocks.size + 1) d'.blocks.size := by
    intro name x hproducer
    obtain ⟨block, d₁, d₂, b, hblock, hslots, hb, rfl⟩ := addProducer_ok hproducer
    cases hslots
    exact FillsArguments.puts hblock (fun _ hb₀ _ _ => ⟨[], fillsArguments_nil hb₀⟩) hb
  cases f with
  | number x => exact hconst h
  | const x => exact hconst h
  | name w => exact hcopy (.inl rfl) h
  | var w => exact hcopy (.inr rfl) h
  | apply op args =>
      obtain ⟨block, d₁, d₂, b, hblock, hslots, hb, rfl⟩ := addProducer_ok h
      obtain ⟨n, d₃, hargs, hpure⟩ := run_bind_ok.mp hslots
      cases hpure
      exact FillsArguments.puts hblock
        (fun _ hb₀ hlength hopen => lowerArguments_lays args hargs hb₀ hlength hopen) hb

end Document

end BlockDiagram
