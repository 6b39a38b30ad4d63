import BlockDiagram.Proofs.Document.Misfits
import BlockDiagram.Proofs.Draft.Ends
/-! Ends: lowering gives a producer and a consumer to every variable that it derives. Of the variables that
are declared, those have a producer that are defined, and those a consumer that are mentioned. -/

namespace BlockDiagram

open Call Draft

variable {α : Type} [Scalar α]

namespace Document

section Lowering

variable {d d' : Draft α} {n : Nat} {us vs : List String}

theorem deriveSignal_signals {owner v : String} {used used' : Nat}
    (h : (deriveSignal owner used).run d = .ok (v, used') d') :
    d'.signals = d.signals.push (Signal.derive v) := by
  obtain ⟨d₀, d₀', hget, hcalls⟩ := run_bind_ok.mp h
  cases hget
  obtain ⟨id, d₁, hsignal, hpure⟩ := run_bind_ok.mp hcalls
  cases hpure
  obtain ⟨-, -, rfl⟩ := addSignal_ok hsignal
  rfl

theorem backed_deriveSignal {owner v : String} {used used' : Nat}
    (hrun : (deriveSignal owner used).run d = .ok (v, used') d') (h : d.Backed n us vs) :
    d'.Backed n (v :: us) (v :: vs) :=
  h.push (deriveSignal_ok hrun).1.widens (deriveSignal_signals hrun)

/-- A new block whose slots have been bound becomes the producer of a variable. -/
theorem backed_produces {name v : String} {k : BlockKind α} {block : BlockId} {d₁ d₂ : Draft α}
    (hblock : (addBlock name k).run d = .ok block d₁)
    (hslots : ∀ b, d₁.Backed n (v :: us) vs → d₁.blocks[block.index]? = some b → b.inputs.length = 0 →
      b.output = none → d₂.Backed n (v :: us) vs ∧
        ∃ ws, d₂.blocks[block.index]? = some { b with inputs := ws })
    {b : DraftBlock α} (hb : d₂.blocks[block.index]? = some b) (h : d.Backed n (v :: us) vs) :
    (d₂.put block { b with output := some (.variable v) }).Backed n us vs := by
  obtain ⟨-, ⟨b₀, hb₀, -, hinputs, hopen⟩, -⟩ := addBlock_ok hblock
  obtain ⟨h₂, ws, hb₂⟩ := hslots b₀ (h.addBlock hblock) hb₀ (by rw [hinputs]; rfl) hopen
  cases hb.symm.trans hb₂
  exact h₂.bindOutput hb hopen

mutual

/-- An argument is carried by a variable that has a producer, and awaits its consumer. -/
theorem backed_lowerArgument {owner : String} : ∀ (f : Formula α) {used used' : Nat} {v : String}
    {us vs : List String} {d d' : Draft α}, (lowerArgument owner f used).run d = .ok (v, used') d' →
      d.Backed n us vs → d'.Backed n us (v :: vs)
  | .name w, _, _, _, _, _, d, _, hrun, h | .var w, _, _, _, _, _, d, _, hrun, h => by
      cases hrun
      exact h.mono (fun _ hu => .inl hu) fun u hu => .inl (List.mem_cons_of_mem w hu)
  | .number x, _, _, _, _, _, _, _, hrun, h | .const x, _, _, _, _, _, _, _, hrun, h => by
      obtain ⟨⟨v, m⟩, d₁, hderive, hproducer⟩ := run_bind_ok.mp hrun
      obtain ⟨block, d₂, d₃, b, hblock, hslots, hb, rfl⟩ := addProducer_ok hproducer
      cases hslots
      exact backed_produces hblock (fun b h₂ hb _ _ => ⟨h₂, b.inputs, hb⟩) hb
        (backed_deriveSignal hderive h)
  | .apply op args, _, _, _, _, _, _, _, hrun, h => by
      obtain ⟨⟨v, m⟩, d₁, hderive, hproducer⟩ := run_bind_ok.mp hrun
      obtain ⟨block, d₂, d₃, b, hblock, hslots, hb, rfl⟩ := addProducer_ok hproducer
      obtain ⟨m', d₄, hargs, hpure⟩ := run_bind_ok.mp hslots
      cases hpure
      exact backed_produces hblock
        (fun b h₂ hb hlength hopen => backed_lowerArguments args hargs hb hlength hopen h₂) hb
        (backed_deriveSignal hderive h)

/-- The block whose slots are bound to the arguments consumes what carries them. -/
theorem backed_lowerArguments {owner : String} {id : BlockId} : ∀ (args : List (Formula α))
    {slot used used' : Nat} {us vs : List String} {d d' : Draft α} {b : DraftBlock α},
      (lowerArguments owner id slot args used).run d = .ok used' d' →
      d.blocks[id.index]? = some b → b.inputs.length = slot → b.output = none → d.Backed n us vs →
      d'.Backed n us vs ∧ ∃ ws, d'.blocks[id.index]? = some { b with inputs := ws }
  | [], _, _, _, _, _, _, _, b, hrun, hb, _, _, h => by
      cases hrun
      exact ⟨h, b.inputs, hb⟩
  | f :: rest, slot, _, _, _, _, _, _, b, hrun, hb, hslot, hopen, h => by
      obtain ⟨⟨w, m⟩, d₁, hfirst, hcalls⟩ := run_bind_ok.mp hrun
      obtain ⟨u, d₂, hbind, hrest⟩ := run_bind_ok.mp hcalls
      have hb₁ := (lowerArgument_ok f hfirst).1.blocks _ _ hb
      obtain ⟨b₁, hb₁', rfl⟩ := bindInput_ok hbind
      cases hb₁.symm.trans hb₁'
      rw [bind_next hslot] at hrest
      have hnext := (backed_lowerArgument f hfirst h).bindNext hb₁
      exact backed_lowerArguments (b := { b with inputs := b.inputs ++ [some (.variable w)] }) rest hrest
        (put_block_self (Array.getElem?_eq_some_iff.mp hb₁).1)
        (by rw [List.length_append, List.length_singleton, hslot]) hopen hnext

end

theorem backed_lowerFormula {owner : String} {f : Formula α} {u : Unit}
    (hrun : (lowerFormula owner f).run d = .ok u d') (h : d.Backed n us vs) : d'.Backed n us vs := by
  have howner : d.Backed n (owner :: us) vs :=
    h.mono (fun v hv => .inl (List.mem_cons_of_mem owner hv)) fun _ hv => .inl hv
  have hconst : ∀ {name : String} {x : α},
      (addProducer name (.constant x) owner fun _ => pure ()).run d = .ok u d' → d'.Backed n us vs := by
    intro name x hproducer
    obtain ⟨block, d₁, d₂, b, hblock, hslots, hb, rfl⟩ := addProducer_ok hproducer
    cases hslots
    exact backed_produces hblock (fun b h₁ hb _ _ => ⟨h₁, b.inputs, hb⟩) hb howner
  have hcopy : ∀ {name w : String}, (addProducer name (.sum : BlockKind α) owner fun block =>
      bindInput block 0 (.variable w)).run d = .ok u d' → d'.Backed n us vs := by
    intro name w hproducer
    obtain ⟨block, d₁, d₂, b, hblock, hslots, hb, rfl⟩ := addProducer_ok hproducer
    refine backed_produces hblock (fun b₀ h₁ hb₀ hlength _ => ?_) hb howner
    obtain ⟨b₁, hb₁, rfl⟩ := bindInput_ok hslots
    cases hb₀.symm.trans hb₁
    rw [bind_next hlength]
    have hawaits : d₁.Backed n (owner :: us) (w :: vs) :=
      h₁.mono (fun _ hv => .inl hv) fun v hv => .inl (List.mem_cons_of_mem w hv)
    exact ⟨hawaits.bindNext hb₀, _, put_block_self (Array.getElem?_eq_some_iff.mp hb₀).1⟩
  cases f with
  | number x => exact hconst hrun
  | const x => exact hconst hrun
  | name w => exact hcopy hrun
  | var w => exact hcopy hrun
  | apply op args =>
      obtain ⟨block, d₁, d₂, b, hblock, hslots, hb, rfl⟩ := addProducer_ok hrun
      obtain ⟨m, d₃, hargs, hpure⟩ := run_bind_ok.mp hslots
      cases hpure
      exact backed_produces hblock
        (fun b h₁ hb hlength hopen => backed_lowerArguments args hargs hb hlength hopen h₁) hb howner

theorem backed_lowerFunction {f : Function α} {u : Unit}
    (hrun : (lowerFunction f).run d = .ok u d') (h : d.Backed n us vs) : d'.Backed n us vs := by
  have hrest : ∀ {table : String} {d₁ : Draft α}, d₁.Backed n us vs →
      (do let _ ← Draft.addFunction f.name table f.inputs f.output : Drafting α Unit).run d₁ =
        .ok u d' → d'.Backed n us vs := by
    intro table d₁ h₁ hcall
    obtain ⟨block, d₂, hfunction, hpure⟩ := run_bind_ok.mp hcall
    cases hpure
    exact h₁.addFunction hfunction
  unfold lowerFunction at hrun
  split at hrun
  · obtain ⟨id, d₁, hid, hcall⟩ := run_bind_ok.mp hrun
    cases hid
    exact hrest h hcall
  · obtain ⟨tableId, d₁, hregister, hread⟩ := run_bind_ok.mp hrun
    obtain ⟨d₂, d₃, hget, hlift⟩ := run_bind_ok.mp hread
    cases hget
    obtain ⟨t, d₄, hentry, hname⟩ := run_bind_ok.mp hlift
    obtain ⟨-, rfl⟩ := run_lift_ok.mp hentry
    obtain ⟨id, d₅, hid, hcall⟩ := run_bind_ok.mp hname
    cases hid
    have hgrows := (registerTable_ok hregister).1
    exact hrest (h.widens hgrows.widens (registerTable_signals hregister)) hcall

/-- Behind the declared variables, every signal of the draft of a document has both ends. -/
theorem backed_of_draft {doc : Document α} {d : Draft α} (h : doc.draft = .ok d) :
    d.Backed doc.vars.length [] [] := by
  obtain ⟨u, hrun⟩ := run_of_draft h
  obtain ⟨u₁, d₁, hsets, hrun⟩ := run_bind_ok.mp hrun
  obtain ⟨u₂, d₂, htables, hrun⟩ := run_bind_ok.mp hrun
  obtain ⟨u₃, d₃, hvars, hrun⟩ := run_bind_ok.mp hrun
  obtain ⟨u₄, d₄, hfunctions, hformulas⟩ := run_bind_ok.mp hrun
  have h₃ : d₃.Backed doc.vars.length [] [] := by
    intro i s hi hs
    have hlength := congrArg List.length (declared_signals hsets htables hvars)
    rw [List.length_map, Array.length_toList] at hlength
    exact absurd (Array.getElem?_eq_some_iff.mp hs).1 (hlength ▸ Nat.not_lt.mpr hi)
  have h₄ : d₄.Backed doc.vars.length [] [] :=
    forEach_keeps (·.Backed doc.vars.length [] [])
      (fun f _ d d' hd hcall => backed_lowerFunction hcall hd) hfunctions h₃
  refine forEach_keeps (·.Backed doc.vars.length [] []) (fun v _ d d' hd hcall => ?_) hformulas h₄
  cases hcalculation : v.calculation with
  | none =>
      rw [hcalculation] at hcall
      cases hcall
      exact hd
  | some f =>
      rw [hcalculation] at hcall
      exact backed_lowerFormula (u := ()) hcall hd

end Lowering

section Declared

omit [Scalar α]

variable (doc : Document α)

/-- The variable has a formula, or some function gives it. -/
def isDefined (v : Variable α) : Bool :=
  v.calculation.isSome || doc.functions.any fun f => f.output == v.varId

/-- Some formula names the variable, or some function reads it. -/
def isMentioned (w : String) : Bool :=
  (doc.vars.any fun v => (v.calculation.elim [] Formula.mentions).contains w) ||
    doc.functions.any fun f => f.inputs.contains w

variable {doc}

theorem isDefined_eq_false {v : Variable α} :
    doc.isDefined v = false ↔ v.calculation = none ∧ ∀ f ∈ doc.functions, f.output ≠ v.varId := by
  simp [isDefined]

theorem isMentioned_iff {w : String} : doc.isMentioned w = true ↔ ∃ v, doc.DependsOn v w := by
  simp only [isMentioned, Bool.or_eq_true, List.any_eq_true, List.contains_iff_mem]
  constructor
  · rintro (⟨x, hx, hw⟩ | ⟨f, hf, hw⟩)
    · cases hcalculation : x.calculation with
      | none =>
          rw [hcalculation] at hw
          cases hw
      | some f =>
          rw [hcalculation] at hw
          exact ⟨x.varId, .inl ⟨x, hx, rfl, f, hcalculation, hw⟩⟩
    · exact ⟨f.output, .inr ⟨f, hf, rfl, hw⟩⟩
  · rintro ⟨v, ⟨x, hx, -, f, hf, hw⟩ | ⟨f, hf, -, hw⟩⟩
    · exact .inl ⟨x, hx, by rw [hf]; exact hw⟩
    · exact .inr ⟨f, hf, hw⟩

end Declared

section Ends

variable {doc : Document α} {d : Draft α} {m : Model α}

/-- A declared variable is not one that the library has made. -/
theorem Arranged.not_derived (h : doc.Arranged d) (hd : d.Sound) {v : Variable α} (hv : v ∈ doc.vars) :
    ¬ d.Derived v.varId := by
  rintro ⟨j, hj⟩
  obtain ⟨i, hi⟩ := List.mem_iff_getElem?.mp hv
  have hsignal := h.signals i v hi
  cases hd.distinct i j _ _ hsignal hj rfl
  have hsame : v.signal = Signal.derive v.varId := Option.some.inj (hsignal.symm.trans hj)
  have hrole : v.signal.roles.derived = (Signal.derive v.varId : Signal α).roles.derived := by rw [hsame]
  cases hrole

/-- The variables that are defined are those that have a producer. -/
theorem Lowered.produced_iff (hlowered : doc.Lowered d) (harranged : doc.Arranged d) {v : Variable α}
    (hv : v ∈ doc.vars) : d.Produced v.varId ↔ doc.isDefined v = true := by
  constructor
  · intro hproduced
    by_contra hnot
    obtain ⟨hnone, hfree⟩ := isDefined_eq_false.mp (Bool.not_eq_true _ ▸ hnot)
    exact hlowered.free v hv hnone hfree hproduced
  · intro hdefined
    rcases Bool.or_eq_true .. |>.mp hdefined with hsome | hfunction
    · obtain ⟨f, hf⟩ := Option.isSome_iff_exists.mp hsome
      obtain ⟨n, -, hspreads⟩ := harranged.blocks
      obtain ⟨ws, p, k, hrooted⟩ := hspreads.rooted hv hf
      exact hrooted.root.produced
    · obtain ⟨f, hf, hout⟩ := List.any_eq_true.mp hfunction
      obtain ⟨axes, values, t, -, -, -, -, tableId, t', cs, -, -, -, ⟨p, hputs⟩, -⟩ :=
        hlowered.functions f hf
      rw [← beq_iff_eq.mp hout]
      exact Puts.produced hputs

/-- The lookup of a function reads the variables of normalizers only. -/
theorem Lowered.lookup_reads (hlowered : doc.Lowered d) (hm : d.Wired d.blocks.toList m) {f : Function α}
    (hf : f ∈ doc.functions) {kind : BlockKind α} {ws : List String} {p : Nat}
    (h : d.Puts kind ws f.output p) : ∀ w ∈ ws, d.Derived w := by
  obtain ⟨axes, values, t, -, -, -, -, tableId, t', cs, -, -, -, ⟨q, hq⟩, hcs⟩ := hlowered.functions f hf
  obtain ⟨-, rfl, rfl⟩ := hm.puts_unique hlowered.sound h hq
  intro w hw
  obtain ⟨p, -, set, s, -, -, hlocates⟩ := forall₂_exists hcs.flip w hw
  exact hlocates.1

/-- The declared variables that are mentioned are those that have a consumer. -/
theorem Lowered.consumed_iff (hlowered : doc.Lowered d) (harranged : doc.Arranged d)
    (hm : d.Wired d.blocks.toList m) {v : Variable α} (hv : v ∈ doc.vars) :
    d.Consumed v.varId ↔ doc.isMentioned v.varId = true := by
  rw [isMentioned_iff]
  constructor
  · rintro ⟨p, b, r, hb, hr, hname⟩
    have hreads : ∀ {ws}, b.inputs = slots ws → v.varId ∈ ws := by
      intro ws hinputs
      rw [hinputs] at hr
      obtain ⟨w, hw, heq⟩ := List.mem_map.mp hr
      cases heq
      cases hname
      exact hw
    have hnot := harranged.not_derived hlowered.sound hv
    rcases harranged.block_cases hb with
      ⟨f, hf, ⟨w, hw, -, hinputs⟩ | ⟨-, ⟨ws, hinputs⟩, hout⟩⟩ | ⟨x, hx, f, ws, q, k, hrooted, hp⟩
    · refine ⟨f.output, .inr ⟨f, hf, rfl, ?_⟩⟩
      rw [List.mem_singleton.mp (hreads hinputs)]
      exact hw
    · have hputs : d.Puts b.kind ws f.output p := ⟨b, _, hb, rfl, hinputs, hout, rfl⟩
      exact absurd (hlowered.lookup_reads hm hf hputs _ (hreads hinputs)) hnot
    · obtain ⟨g, us, u, ⟨b', r', hb', -, hinputs, -⟩, hus⟩ := hrooted.block hp
      cases hb.symm.trans hb'
      rcases hus _ (hreads hinputs) with hmention | hderived
      · exact ⟨x.varId, .inl ⟨x, hx, rfl, f, hrooted.calculation, hmention⟩⟩
      · exact absurd hderived hnot
  · rintro ⟨u, hdepends⟩
    obtain ⟨x, -, k, ws, ⟨p, hputs⟩, hin⟩ :=
      Relation.TransGen.tail'_iff.mp (needs_of_dependsOn hlowered harranged hdepends)
    exact Puts.consumed hputs hin

/-- No block of the draft of a document is an input or an output. -/
theorem Arranged.inner (h : doc.Arranged d) {p : Nat} {b : DraftBlock α} (hb : d.blocks[p]? = some b) :
    b.kind.isInput = false ∧ b.kind.isOutput = false := by
  rcases h.block_cases hb with
    ⟨f, hf, ⟨w, hw, ⟨set, hkind⟩, -⟩ | ⟨⟨t, hkind⟩, -, -⟩⟩ | ⟨x, hx, f, ws, q, k, hrooted, hp⟩
  · rw [hkind]
    exact ⟨rfl, rfl⟩
  · rw [hkind]
    exact ⟨rfl, rfl⟩
  · obtain ⟨g, us, u, ⟨b', r', hb', hkind, -⟩, -⟩ := hrooted.block hp
    cases hb.symm.trans hb'
    rw [hkind]
    exact g.head_inner

theorem Arranged.lists_nil (h : doc.Arranged d) (hm : d.Wired d.blocks.toList m) :
    m.inputs = [] ∧ m.outputs = [] := by
  have hkind : ∀ id ∈ m.blockIds, (m.kindOf? id).any BlockKind.isInput = false ∧
      (m.kindOf? id).any BlockKind.isOutput = false := by
    intro id hid
    obtain ⟨b, hb⟩ := Model.exists_block (Handle.mem_all.mp hid)
    obtain ⟨b₀, hb₀, hres⟩ := hm.block? hb
    rw [Array.getElem?_toList] at hb₀
    rw [Model.kindOf?, hb, Option.map_some, Option.any_some, Option.any_some, hres.kind]
    exact h.inner hb₀
  constructor
  · rw [hm.enrolled.inputs]
    exact List.filter_eq_nil_iff.mpr fun id hid => by rw [(hkind id hid).1]; exact Bool.false_ne_true
  · rw [hm.enrolled.outputs]
    exact List.filter_eq_nil_iff.mpr fun id hid => by rw [(hkind id hid).2]; exact Bool.false_ne_true

end Ends

end Document

end BlockDiagram
