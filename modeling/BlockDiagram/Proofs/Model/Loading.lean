import BlockDiagram.Proofs.Model.Inputs
import Mathlib.Logic.Nontrivial.Defs
/-! Loading: what remains of a list of records once each of them has been given to the input block that
its variable ID leads to. -/

namespace BlockDiagram

open Call

variable {α : Type}

namespace Model

variable {m : Model α}

/-- The value of the last record that lands on a block, if one does. -/
def landed? (m : Model α) (records : List (Record α)) (p : BlockId) : Option α :=
  (records.reverse.find? fun r => m.inputBlock? r.varId == some p).map Record.value

/-- The model once each record has landed. -/
def loaded (m : Model α) (records : List (Record α)) : Model α :=
  { m with
    blocks := m.blocks.mapIdx fun i b => { b with value := (m.landed? records ⟨i⟩).getD b.value } }

theorem landed?_nil {p : BlockId} : m.landed? [] p = none := rfl

/-- The first record counts only where no later one lands. -/
theorem landed?_cons {r : Record α} {records : List (Record α)} {p : BlockId} :
    m.landed? (r :: records) p =
      (m.landed? records p).or (if m.inputBlock? r.varId = some p then some r.value else none) := by
  simp only [landed?, List.reverse_cons, List.find?_append, List.find?_singleton, beq_iff_eq,
    Option.map_or]
  split <;> rfl

theorem loaded_block? {records : List (Record α)} {p : BlockId} :
    (m.loaded records).block? p =
      (m.block? p).map fun b => { b with value := (m.landed? records p).getD b.value } := by
  simp only [loaded, block?, Array.getElem?_mapIdx]

theorem loaded_bare [Arithmetic α] (m : Model α) (records : List (Record α)) :
    (m.loaded records).bare = m.bare := by
  have hblocks : (m.loaded records).blocks.map Block.bare = m.blocks.map Block.bare := by
    apply Array.ext_getElem?
    intro i
    rw [Array.getElem?_map, loaded, Array.getElem?_mapIdx, Array.getElem?_map]
    cases m.blocks[i]? with
    | none => rfl
    | some b => rfl
  simp only [bare, hblocks]
  rfl

theorem loaded_nil (m : Model α) : m.loaded [] = m := by
  have hblocks : m.blocks.mapIdx (fun _ b => { b with value := b.value }) = m.blocks := by
    apply Array.ext_getElem?
    intro i
    rw [Array.getElem?_mapIdx, Option.map_id']
  simp only [loaded, landed?_nil, Option.getD_none, hblocks]

/-- To load a record is to set the block it leads to before the other records are loaded. -/
theorem loaded_cons [Arithmetic α] {r : Record α} {p : BlockId} (hp : m.inputBlock? r.varId = some p)
    (records : List (Record α)) :
    ({ m with blocks := m.blocks.modify p.index fun b => { b with value := r.value } } :
      Model α).loaded records = m.loaded (r :: records) := by
  have hlanded : ∀ q, ({ m with
      blocks := m.blocks.modify p.index fun b => { b with value := r.value } } :
      Model α).landed? records q = m.landed? records q := by
    intro q
    simp only [landed?, inputBlock?_of_bare (m.set_value_bare p.index r.value)]
  have hblocks : (m.blocks.modify p.index fun b => { b with value := r.value }).mapIdx
      (fun i b => { b with value := (m.landed? records ⟨i⟩).getD b.value }) =
      m.blocks.mapIdx fun i b => { b with value := (m.landed? (r :: records) ⟨i⟩).getD b.value } := by
    apply Array.ext_getElem?
    intro i
    rw [Array.getElem?_mapIdx, Array.getElem?_mapIdx, Array.getElem?_modify, landed?_cons, hp]
    by_cases hi : p.index = i
    · subst hi
      rw [if_pos rfl, if_pos rfl, Option.map_map]
      cases m.landed? records ⟨p.index⟩ with
      | none => rfl
      | some v => rfl
    · have hne : some p ≠ some ⟨i⟩ := by
        rintro ⟨⟩
        exact hi rfl
      rw [if_neg hi, if_neg hne, Option.or_none]
  simp only [loaded, hlanded, hblocks]

/-- Records that all lead somewhere are loaded. -/
theorem loadInputs_run [Arithmetic α] {records : List (Record α)}
    (h : ∀ r ∈ records, ∃ p, m.inputBlock? r.varId = some p) :
    (loadInputs records).run m = .ok () (m.loaded records) := by
  induction records generalizing m with
  | nil =>
      rw [loaded_nil]
      rfl
  | cons r records ih =>
      obtain ⟨p, hp⟩ := h r List.mem_cons_self
      rw [loadInputs, EStateM.run_bind, setInput_run, hp, ← loaded_cons hp]
      refine ih fun s hs => ?_
      rw [inputBlock?_of_bare (m.set_value_bare p.index r.value)]
      exact h s (List.mem_cons_of_mem r hs)

theorem inputRecord?_eq (m : Model α) (p : BlockId) :
    m.inputRecord? p = (m.outputOf? p).bind fun s => (m.block? p).map fun b => s.shown b.value := by
  cases hb : m.block? p with
  | none => simp [inputRecord?, outputOf?, hb]
  | some b =>
      cases hout : b.output with
      | none => simp [inputRecord?, outputOf?, hb, hout]
      | some id =>
          cases hs : m.signal? id with
          | none => simp [inputRecord?, record?, outputOf?, hb, hout, hs]
          | some s => simp [inputRecord?, record?, outputOf?, Signal.shown, hb, hout, hs]

/-- The record shows a signal with the value of its input block. -/
def Shows (m : Model α) (e : BlockId × Signal α) (r : Record α) : Prop :=
  ∃ b, m.block? e.1 = some b ∧ r = e.2.shown b.value

theorem inputVector_shows (m : Model α) : List.Forall₂ m.Shows m.supplied m.inputVector := by
  unfold supplied inputVector
  induction m.inputs with
  | nil => exact .nil
  | cons p ps ih =>
      cases hs : m.outputOf? p with
      | none =>
          have hr : m.inputRecord? p = none := by rw [inputRecord?_eq, hs, Option.bind_none]
          simpa only [List.filterMap_cons, hs, hr, Option.map_none] using ih
      | some s =>
          obtain ⟨b, id, hb, -⟩ := outputOf?_eq_some.mp hs
          have hr : m.inputRecord? p = some (s.shown b.value) := by
            rw [inputRecord?_eq, hs, hb]
            rfl
          simpa only [List.filterMap_cons, hs, hr, Option.map_some] using .cons ⟨b, hb, rfl⟩ ih

theorem Shows.unique {e : BlockId × Signal α} {r t : Record α} (hr : m.Shows e r)
    (ht : m.Shows e t) : r = t := by
  obtain ⟨b, hb, rfl⟩ := hr
  obtain ⟨c, hc, rfl⟩ := ht
  cases hb.symm.trans hc
  rfl

/-- Records that show the signals of the input blocks, with any values. -/
def Relabels (m : Model α) (records : List (Record α)) : Prop :=
  records.map Record.label = m.inputVector.map Record.label

theorem shown_of_label {s : Signal α} {r : Record α} {v : α} (h : r.label = (s.shown v).label) :
    r = s.shown r.value := by
  cases r
  simp only [Record.label, Signal.shown, Prod.mk.injEq] at h
  obtain ⟨rfl, rfl, rfl, rfl, rfl⟩ := h
  rfl

theorem Relabels.shown {records : List (Record α)} (h : m.Relabels records) :
    List.Forall₂ (fun e r => r = e.2.shown r.value) m.supplied records := by
  have hlabels : List.Forall₂ (fun t r : Record α => r.label = t.label) m.inputVector records := by
    have heq : List.Forall₂ (fun a b => a = b) (m.inputVector.map Record.label)
        (records.map Record.label) := by
      rw [List.forall₂_eq_eq_eq]
      exact h.symm
    rw [List.forall₂_map_left_iff, List.forall₂_map_right_iff] at heq
    exact heq.imp fun _ _ => Eq.symm
  refine forall₂_comp m.inputVector_shows hlabels ?_
  rintro e t r ⟨b, -, rfl⟩ hlabel
  exact shown_of_label hlabel

theorem inputVector_map {γ : Type} (f : Record α → γ) (g : Signal α → γ)
    (hfg : ∀ s v, f (s.shown v) = g s) :
    m.inputVector.map f = m.supplied.map fun e => g e.2 := by
  have hsame : List.Forall₂ (fun a b => a = b) (m.supplied.map fun e => g e.2)
      (m.inputVector.map f) := by
    rw [List.forall₂_map_left_iff, List.forall₂_map_right_iff]
    refine m.inputVector_shows.imp ?_
    rintro e r ⟨b, -, rfl⟩
    exact (hfg e.2 b.value).symm
  rw [List.forall₂_eq_eq_eq] at hsame
  exact hsame.symm

/-- No input has a display name that is the variable ID of an input behind it. -/
def Unshadowed (m : Model α) : Prop :=
  m.inputVector.Pairwise fun r later => r.name ≠ later.varId

theorem unshadowed_iff :
    m.Unshadowed ↔ m.supplied.Pairwise fun e later => e.2.name ≠ later.2.varId := by
  have hnames := inputVector_map (m := m) (fun r => (r.name, r.varId)) (fun s => (s.name, s.varId))
    fun _ _ => rfl
  have hleft : (m.inputVector.map fun r => (r.name, r.varId)).Pairwise (fun a b => a.1 ≠ b.2) ↔
      m.Unshadowed := List.pairwise_map
  rw [← hleft, hnames, List.pairwise_map]

/-- Different input blocks produce signals of different variable IDs. -/
theorem supplied_distinct (hnames : m.Distinct) (hedges : m.EdgesAgree) (henrolled : m.Enrolled) :
    m.supplied.Pairwise fun e later => e.2.varId ≠ later.2.varId := by
  have hblocks := List.pairwise_map.mp (supplied_fst_nodup henrolled)
  refine hblocks.imp_of_mem ?_
  rintro ⟨p, s⟩ ⟨q, t⟩ hp hq hne heq
  obtain ⟨id, ⟨b, hb, -, hbout⟩, hs⟩ := (mem_supplied henrolled).mp hp
  obtain ⟨id', ⟨c, hc, -, hcout⟩, ht⟩ := (mem_supplied henrolled).mp hq
  cases hnames id id' s t hs ht heq
  exact hne (hedges.output_unique hb hc hbout hcout)

/-- Where an entry is not hit by the keys of those behind it, each is found by its own. -/
theorem find_of_pairwise {β : Type} {q : β → β → Bool} {xs : List β}
    (h : xs.Pairwise fun a b => q b a = false) {b : β} (hb : b ∈ xs) (hself : q b b = true) :
    xs.find? (q b) = some b := by
  induction h with
  | nil => cases hb
  | @cons a xs hhead _ ih =>
      rcases List.mem_cons.mp hb with rfl | hb
      · rw [List.find?_cons_of_pos hself]
      · rw [List.find?_cons_of_neg (by rw [hhead b hb]; exact Bool.false_ne_true), ih hb]

theorem Unshadowed.inputBlock? (h : m.Unshadowed) (hnames : m.Distinct) (hedges : m.EdgesAgree)
    (henrolled : m.Enrolled) {e : BlockId × Signal α} (he : e ∈ m.supplied) :
    m.inputBlock? e.2.varId = some e.1 := by
  refine inputBlock?_of_supplied (find_of_pairwise (q := fun e f => f.2.answersTo e.2.varId) ?_ he ?_)
  · refine ((unshadowed_iff.mp h).and (supplied_distinct hnames hedges henrolled)).imp ?_
    rintro f g ⟨hname, hvar⟩
    simp [Signal.answersTo, hname, hvar]
  · simp [Signal.answersTo]

theorem landed?_eq_none {records : List (Record α)} {p : BlockId}
    (h : ∀ r ∈ records, m.inputBlock? r.varId ≠ some p) : m.landed? records p = none := by
  rw [landed?, Option.map_eq_none_iff, List.find?_eq_none]
  intro r hr
  simpa using h r (List.mem_reverse.mp hr)

/-- Records that lead to different blocks do not overwrite each other. -/
theorem landed?_of_targets {R : BlockId × Signal α → Record α → Prop}
    {es : List (BlockId × Signal α)} {records : List (Record α)}
    (h : List.Forall₂ (fun e r => R e r ∧ m.inputBlock? r.varId = some e.1) es records)
    (hnodup : (es.map Prod.fst).Nodup) :
    List.Forall₂ (fun e r => R e r ∧ m.landed? records e.1 = some r.value) es records := by
  induction h with
  | nil => exact .nil
  | @cons e r es records htarget hrest ih =>
      rw [List.map_cons, List.nodup_cons] at hnodup
      have hfree : m.landed? records e.1 = none := by
        refine landed?_eq_none fun t ht heq => ?_
        obtain ⟨f, hf, -, hft⟩ := forall₂_exists hrest.flip t ht
        have hsame : e.1 = f.1 := Option.some.inj (heq.symm.trans hft)
        exact hnodup.1 (hsame ▸ List.mem_map_of_mem hf)
      refine .cons ⟨htarget.1, ?_⟩ ((ih hnodup.2).imp fun f t hf => ⟨hf.1, ?_⟩)
      · rw [landed?_cons, hfree, htarget.2, if_pos rfl]
        rfl
      · rw [landed?_cons, hf.2]
        rfl

theorem loaded_shows [Arithmetic α] {records : List (Record α)} :
    List.Forall₂ (m.loaded records).Shows m.supplied (m.loaded records).inputVector := by
  have hshows := (m.loaded records).inputVector_shows
  rwa [supplied_of_bare (m.loaded_bare records)] at hshows

/-- Without shadowing every input holds the value of its own record. -/
theorem Unshadowed.loaded [Arithmetic α] (h : m.Unshadowed) (hnames : m.Distinct)
    (hedges : m.EdgesAgree) (henrolled : m.Enrolled) {records : List (Record α)}
    (hrecords : m.Relabels records) : (m.loaded records).inputVector = records := by
  have htargets : List.Forall₂ (fun e r => (e ∈ m.supplied ∧ r = e.2.shown r.value) ∧
      m.inputBlock? r.varId = some e.1) m.supplied records := by
    refine forall₂_imp hrecords.shown fun e he r hr => ⟨⟨he, hr⟩, ?_⟩
    rw [hr]
    exact h.inputBlock? hnames hedges henrolled he
  have hshows : List.Forall₂ (m.loaded records).Shows m.supplied records := by
    refine (landed?_of_targets htargets (supplied_fst_nodup henrolled)).imp ?_
    rintro e r ⟨⟨he, hr⟩, hlanded⟩
    obtain ⟨id, ⟨b, hb, -⟩, -⟩ := (mem_supplied henrolled).mp he
    refine ⟨{ b with value := r.value }, ?_, hr⟩
    rw [loaded_block?, hb, hlanded]
    rfl
  exact List.right_unique_forall₂' (R := (m.loaded records).Shows) (fun _ _ _ => Shows.unique) loaded_shows
    hshows

/-- The key of an input is taken by an input before it that has the key as its display name. -/
theorem inputBlock?_of_shadowed (henrolled : m.Enrolled) {i j : Nat} (hi : i < m.supplied.length)
    (hj : j < m.supplied.length) (hij : i < j)
    (heq : m.supplied[i].2.name = m.supplied[j].2.varId) :
    m.inputBlock? m.supplied[j].2.varId ≠ some m.supplied[j].1 := by
  have hanswers : m.supplied[i].2.answersTo m.supplied[j].2.varId = true := by
    simp [Signal.answersTo, heq]
  intro hblock
  cases hfound : m.supplied.find? fun e => e.2.answersTo m.supplied[j].2.varId with
  | none =>
      exact List.find?_eq_none.mp hfound _ (List.getElem_mem hi) hanswers
  | some e =>
      rw [inputBlock?_of_supplied hfound] at hblock
      obtain ⟨-, l, hl, rfl, hfirst⟩ := List.find?_eq_some_iff_getElem.mp hfound
      have hlj : l = j := by
        have hl' : l < (m.supplied.map Prod.fst).length := by simpa using hl
        have hj' : j < (m.supplied.map Prod.fst).length := by simpa using hj
        have hsame : (m.supplied.map Prod.fst)[l] = (m.supplied.map Prod.fst)[j] := by
          rw [List.getElem_map, List.getElem_map]
          exact Option.some.inj hblock
        exact (supplied_fst_nodup henrolled).getElem_inj_iff.mp hsame
      have := hfirst i (hlj ▸ hij)
      rw [hanswers] at this
      cases this

/-- Where every vector that is loaded is there afterwards, no input shadows another. If one did, a value
for the later input alone would be lost. -/
theorem unshadowed_of_loaded [Arithmetic α] [Nontrivial α] (henrolled : m.Enrolled)
    (h : ∀ records, m.Relabels records → (m.loaded records).inputVector = records) :
    m.Unshadowed := by
  rw [unshadowed_iff, List.pairwise_iff_getElem]
  intro i j hi hj hij heq
  have hlost := inputBlock?_of_shadowed henrolled hi hj hij heq
  have hmem := List.getElem_mem hj
  generalize m.supplied[j] = f at hlost hmem
  obtain ⟨id, ⟨b, hb, -⟩, -⟩ := (mem_supplied (p := f.1) henrolled).mp hmem
  obtain ⟨x, hx⟩ := exists_ne b.value
  let g : BlockId × Signal α → Record α := fun e => e.2.shown (if e.1 = f.1 then x else b.value)
  have hrecords : m.Relabels (m.supplied.map g) := by
    rw [Relabels, List.map_map]
    exact (inputVector_map Record.label (fun s => (s.shown b.value).label) fun _ _ => rfl).symm
  have hvalue : (m.landed? (m.supplied.map g) f.1).getD b.value = b.value := by
    cases hlanded : m.landed? (m.supplied.map g) f.1 with
    | none => rfl
    | some v =>
        obtain ⟨r, hr, rfl⟩ := Option.map_eq_some_iff.mp hlanded
        have htarget : m.inputBlock? r.varId = some f.1 := by simpa using List.find?_some hr
        obtain ⟨e, he, rfl⟩ := List.mem_map.mp (List.mem_reverse.mp (List.mem_of_find?_eq_some hr))
        have hne : e.1 ≠ f.1 := by
          intro hsame
          rw [List.inj_on_of_nodup_map (supplied_fst_nodup henrolled) he hmem hsame] at htarget
          exact hlost htarget
        exact if_neg hne
  have hshows : List.Forall₂ (m.loaded (m.supplied.map g)).Shows m.supplied
      (m.loaded (m.supplied.map g)).inputVector := loaded_shows
  rw [h _ hrecords, List.forall₂_map_right_iff, List.forall₂_same] at hshows
  obtain ⟨c, hc, hshown⟩ := hshows f hmem
  rw [loaded_block?, hb, Option.map_some, hvalue] at hc
  cases hc
  have hcontra : (if f.1 = f.1 then x else b.value) = b.value := congrArg Record.value hshown
  rw [if_pos rfl] at hcontra
  exact hx hcontra

theorem Relabels.targets {records : List (Record α)} (h : m.Relabels records) :
    ∀ r ∈ records, ∃ p, m.inputBlock? r.varId = some p := by
  intro r hr
  obtain ⟨e, he, hshown⟩ := forall₂_exists h.shown.flip r hr
  have hanswers : e.2.answersTo r.varId = true := by
    rw [hshown]
    simp [Signal.answersTo, Signal.shown]
  cases hfound : m.supplied.find? fun e => e.2.answersTo r.varId with
  | none => exact absurd hanswers (List.find?_eq_none.mp hfound e he)
  | some f => exact ⟨f.1, inputBlock?_of_supplied hfound⟩

/-- Loading a vector that shows the inputs with any values succeeds, and each record lands where its
variable ID leads to. Every vector that is loaded is there afterwards exactly if no input has a display
name that is the variable ID of an input behind it. -/
theorem Reachable.loading_exact_iff [Scalar α] [Nontrivial α] (h : m.Reachable) :
    (∀ records, m.Relabels records → (loadInputs records).run m = .ok () (m.loaded records)) ∧
      ((∀ records, m.Relabels records → (m.loaded records).inputVector = records) ↔
        m.Unshadowed) := by
  have henrolled := h.sound.enrolled
  refine ⟨fun records hrecords => loadInputs_run (hrecords.targets), ?_⟩
  constructor
  · exact unshadowed_of_loaded henrolled
  · intro hnone records hrecords
    exact hnone.loaded h.distinct h.sound.edges henrolled hrecords

/-- Two inputs; the display name of the first is the variable ID of the second. -/
def swapped : Draft Float :=
  .after "swapped"
    [ .signal ((Signal.declare "A" "B" "").withRole .input),
      .signal ((Signal.declare "B" "b" "").withRole .input) ]

/-- The record of the second input lands on the first one. -/
theorem swapped_loses_value :
    ∃ (m : Model Float) (records : List (Record Float)), swapped.build = .ok m ∧
      m.Relabels records ∧ (loadInputs records).run m = .ok () (m.loaded records) ∧
      (m.loaded records).inputVector ≠ records := by
  have hbuilds : swapped.build.toOption.any (fun m =>
      (m.inputVector.map fun r => (r.name, r.varId)) == [("B", "A"), ("b", "B")]) = true := by
    decide +kernel
  obtain ⟨m, hm, hvector⟩ := outcome_of_any hbuilds
  rw [beq_iff_eq] at hvector
  have hshadowed : ¬ m.Unshadowed := by
    intro hnone
    have hpairs := List.pairwise_map (R := fun a b : String × String => a.1 ≠ b.2)
      (f := fun r : Record Float => (r.name, r.varId)).mpr hnone
    rw [hvector] at hpairs
    revert hpairs
    decide
  have hnontrivial : Nontrivial Float := ⟨0, 1, by decide⟩
  obtain ⟨hloads, hexact⟩ := (Reachable.built (Draft.reachable_after _ _) hm).loading_exact_iff
  rw [← hexact] at hshadowed
  simp only [not_forall] at hshadowed
  obtain ⟨records, hrecords, hlost⟩ := hshadowed
  exact ⟨m, records, hm, hrecords, hloads records hrecords, hlost⟩

end Model

end BlockDiagram
