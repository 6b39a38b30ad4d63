import BlockDiagram.Proofs.Draft.Resolution
import BlockDiagram.Proofs.Model.Halves
/-! Redeclaration: a signal that comes from another model, declared again. Only the mark of a limiter is
taken over, and it tells the two drafts and the two models apart. -/

namespace BlockDiagram

open Call

variable {α : Type}

/-- The signal as a declaration gives it: with no wires and no limiter in place. -/
def Signal.afresh (s : Signal α) : Signal α := { s.unwired with limited := false }

/-- The signal of the given handle goes by an ID of its own and feeds a limiter with the limits of `s`. The
signal behind the limiter goes by the ID of `s`. -/
def Model.Guards [Arithmetic α] (m : Model α) (id : SignalId) (s : Signal α) : Prop :=
  ∃ u p c n t, m.signal? id = some u ∧ u.varId ≠ s.varId ∧ m.block? p = some c ∧
    c.kind = .limiterBetween s.lower s.upper ∧ c.inputs = [id] ∧ c.output = some n ∧
    m.signal? n = some t ∧ t.varId = s.varId

namespace Draft

variable {β : Type} {d d' : Draft α} {s : Signal α} {i : Nat}

/-- Two drafts that differ in one signal at most: in the second draft it is as a declaration gives it, in the
first it may be marked as limited. -/
structure Twins (s : Signal α) (i : Nat) (d d' : Draft α) : Prop where
  rest : d' = { d with signals := d'.signals }
  others : ∀ j, j ≠ i → d'.signals[j]? = d.signals[j]?
  first : d.signals[i]? = some s.unwired
  second : d'.signals[i]? = some s.afresh

namespace Twins

theorem varIds_eq (h : d.Twins s i d') : d'.varIds = d.varIds := by
  refine List.ext_getElem? fun j => ?_
  rw [varIds, varIds, List.getElem?_map, List.getElem?_map, Array.getElem?_toList, Array.getElem?_toList]
  by_cases hj : j = i
  · subst hj
    rw [h.first, h.second]
    rfl
  · rw [h.others j hj]

theorem size_eq (h : d.Twins s i d') : d'.signals.size = d.signals.size := by
  have hlength := congrArg List.length h.varIds_eq
  rwa [varIds, varIds, List.length_map, List.length_map, Array.length_toList, Array.length_toList]
    at hlength

theorem push (h : d.Twins s i d') (x : Signal α) :
    ({ d with signals := d.signals.push x } : Draft α).Twins s i
      { d' with signals := d'.signals.push x } := by
  have hsize := h.size_eq
  have hi := (Array.getElem?_eq_some_iff.mp h.first).1
  obtain ⟨ts, rfl⟩ : ∃ ts, d' = { d with signals := ts } := ⟨_, h.rest⟩
  refine ⟨rfl, fun j hj => ?_, ?_, ?_⟩
  · rw [Array.getElem?_push, Array.getElem?_push, h.others j hj]
    exact if_congr (by rw [hsize]) rfl rfl
  · rw [Array.getElem?_push, if_neg (Nat.ne_of_lt hi)]
    exact h.first
  · rw [Array.getElem?_push, if_neg (Nat.ne_of_lt (hsize ▸ hi))]
    exact h.second

/-- A call that leaves the signals alone, and does the same whatever they are but for their number. -/
theorem of_frame {x : Drafting α β} (hframe : ∀ (d : Draft α) ts, ts.size = d.signals.size →
      (∃ b d₁, x.run d = .ok b d₁ ∧ d₁.signals = d.signals ∧
        x.run { d with signals := ts } = .ok b { d₁ with signals := ts }) ∨
      ∃ e d₁, x.run d = .error e d₁ ∧ d₁.signals = d.signals ∧
        x.run { d with signals := ts } = .error e { d₁ with signals := ts }) :
    Respects (Twins s i) x := by
  intro d d' h
  have hsize := h.size_eq
  obtain ⟨ts, rfl⟩ : ∃ ts, d' = { d with signals := ts } := ⟨_, h.rest⟩
  have hkeeps : ∀ d₁ : Draft α, d₁.signals = d.signals →
      d₁.Twins s i { d₁ with signals := ts } := fun d₁ hsame =>
    ⟨rfl, hsame ▸ h.others, hsame ▸ h.first, h.second⟩
  rcases hframe d ts hsize with ⟨b, d₁, hrun, hsame, hrun'⟩ | ⟨e, d₁, hrun, hsame, hrun'⟩
  · exact .inl ⟨b, d₁, _, hrun, hrun', hkeeps d₁ hsame⟩
  · exact .inr ⟨e, d₁, _, hrun, hrun', hkeeps d₁ hsame⟩

end Twins

section Calls

theorem respects_addSignal (x : Signal α) : Respects (Twins s i) (addSignal x) := by
  intro d d' h
  rw [addSignal_run, addSignal_run, h.varIds_eq, h.size_eq]
  split
  · exact .inr ⟨_, d, d', rfl, rfl, h⟩
  · exact .inl ⟨_, _, _, rfl, rfl, h.push x.unwired⟩

theorem enlist_signals (d : Draft α) (ts : Array (Signal α)) (id : BlockId) (k : BlockKind α) :
    ({ d with signals := ts } : Draft α).enlist id k =
      (d.enlist id k).map fun d₁ => { d₁ with signals := ts } := by
  unfold enlist
  split
  · split <;> rfl
  · split <;> rfl
  · rfl

theorem respects_addBlock (name : String) (k : BlockKind α) :
    Respects (Twins s i) (addBlock name k) := by
  refine Twins.of_frame fun d ts _ => ?_
  rw [addBlock_run, addBlock_run, enlist_signals d ts]
  cases henlist : d.enlist ⟨d.blocks.size⟩ k with
  | error e => exact .inr ⟨e, d, rfl, rfl, rfl⟩
  | ok d₁ => exact .inl ⟨_, _, rfl, (enlist_ok henlist).1, rfl⟩

theorem bindable_signals (d : Draft α) {ts : Array (Signal α)} (hsize : ts.size = d.signals.size)
    (id : BlockId) (r : Reference) :
    ({ d with signals := ts } : Draft α).bindable id r = d.bindable id r := by
  cases r with
  | signal j =>
      unfold bindable checkReference
      rw [hsize]
      rfl
  | «variable» v => rfl

theorem respects_bindInput (id : BlockId) (slot : Nat) (r : Reference) :
    Respects (Twins s i) (bindInput id slot r : Drafting α Unit) := by
  refine Twins.of_frame fun d ts hsize => ?_
  rw [bindInput_run, bindInput_run, bindable_signals d hsize]
  cases d.bindable id r with
  | error e => exact .inr ⟨e, d, rfl, rfl, rfl⟩
  | ok b => exact .inl ⟨_, _, rfl, rfl, rfl⟩

theorem respects_bindOutput (id : BlockId) (r : Reference) :
    Respects (Twins s i) (bindOutput id r : Drafting α Unit) := by
  refine Twins.of_frame fun d ts hsize => ?_
  rw [bindOutput_run, bindOutput_run, bindable_signals d hsize]
  cases d.bindable id r with
  | error e => exact .inr ⟨e, d, rfl, rfl, rfl⟩
  | ok b =>
      dsimp only
      cases b.kind.hasOutput with
      | false => exact .inr ⟨_, d, rfl, rfl, rfl⟩
      | true => exact .inl ⟨_, _, rfl, rfl, rfl⟩

theorem respects_registerBreakpoints [Arithmetic α] (id : String) (values : List α) :
    Respects (Twins s i) (registerBreakpoints id values) := by
  refine Twins.of_frame fun d ts _ => ?_
  rw [registerBreakpoints_run, registerBreakpoints_run]
  dsimp only
  split
  · exact .inr ⟨_, d, rfl, rfl, rfl⟩
  · cases BreakpointSet.ofValues id values with
    | error e => exact .inr ⟨e, d, rfl, rfl, rfl⟩
    | ok x => exact .inl ⟨_, _, rfl, rfl, rfl⟩

theorem respects_registerTable (id : Option String) (axes : List String) (values : Array α) :
    Respects (Twins s i) (registerTable id axes values) := by
  refine Twins.of_frame fun d ts _ => ?_
  have htables : ({ d with signals := ts } : Draft α).tableIds = d.tableIds := rfl
  have hid : ({ d with signals := ts } : Draft α).claimedId id = d.claimedId id := by cases id <;> rfl
  have hclaimed : ({ d with signals := ts } : Draft α).claimed id = { d.claimed id with signals := ts } := by
    cases id <;> rfl
  have hsame : (d.claimed id).signals = d.signals := by cases id <;> rfl
  have haxes : ({ d with signals := ts } : Draft α).axesNamed axes = d.axesNamed axes := rfl
  rw [registerTable_run, registerTable_run, htables, hid, hclaimed, haxes]
  split
  · exact .inr ⟨_, d, rfl, rfl, rfl⟩
  · cases d.axesNamed axes >>= (Table.ofValues (d.claimedId id) · values) with
    | error e => exact .inr ⟨e, _, rfl, hsame, rfl⟩
    | ok x => exact .inl ⟨_, _, rfl, hsame, rfl⟩

theorem respects_bindVariables (id : BlockId) (slot : Nat) (vs : List String) :
    Respects (Twins s i) (bindVariables id slot vs : Drafting α Unit) := by
  induction vs generalizing slot with
  | nil => exact respects_pure ()
  | cons v vs ih => exact respects_bind (respects_bindInput id slot _) fun _ => ih (slot + 1)

theorem respects_addLookup (name table : String) (coordinates : List String) (output : String) :
    Respects (Twins s i) (addLookup name table coordinates output : Drafting α BlockId) := by
  refine respects_get (fun d d' h => ?_) fun d => respects_bind (respects_lift _) fun id => ?_
  · rw [h.rest]
    rfl
  · refine respects_bind (respects_addBlock _ _) fun block => ?_
    refine respects_bind (respects_bindVariables _ _ _) fun _ => ?_
    exact respects_bind (respects_bindOutput _ _) fun _ => respects_pure _

variable [Scalar α]

theorem respects_addNormalizer (set input : String) :
    Respects (Twins s i) (addNormalizer set input : Drafting α String) := by
  refine respects_get (fun d d' h => ?_) fun d => respects_bind (respects_lift _) fun id => ?_
  · have hvarIds := h.varIds_eq
    obtain ⟨ts, rfl⟩ : ∃ ts, d' = { d with signals := ts } := ⟨_, h.rest⟩
    simp only [hvarIds]
    rfl
  · dsimp only
    split
    · exact respects_pure _
    · refine respects_bind (respects_addSignal _) fun signal => ?_
      refine respects_bind (respects_addBlock _ _) fun block => ?_
      refine respects_bind (respects_bindInput _ _ _) fun _ => ?_
      refine respects_bind (respects_bindOutput _ _) fun _ => ?_
      refine respects_bind (respects_modify fun d d' h => ?_) fun _ => respects_pure _
      obtain ⟨ts, rfl⟩ : ∃ ts, d' = { d with signals := ts } := ⟨_, h.rest⟩
      exact ⟨rfl, h.others, h.first, h.second⟩

theorem respects_addFunction (name table : String) (inputs : List String) (output : String) :
    Respects (Twins s i) (addFunction name table inputs output : Drafting α BlockId) := by
  refine respects_get (fun d d' h => ?_) fun d => respects_bind (respects_lift _) fun t => ?_
  · rw [h.rest]
    rfl
  · split
    · exact respects_bind (respects_fail _) fun _ =>
        respects_bind (respects_mapM (fun _ => respects_addNormalizer _ _) _) fun _ =>
          respects_addLookup _ _ _ _
    · exact respects_bind (respects_mapM (fun _ => respects_addNormalizer _ _) _) fun _ =>
        respects_addLookup _ _ _ _

end Calls

end Draft

theorem DraftCall.respects_twins [Scalar α] {s : Signal α} {i : Nat} (c : DraftCall α) :
    Respects (Draft.Twins s i) c.run := by
  cases c with
  | signal x => exact respects_bind (Draft.respects_addSignal x) fun _ => respects_pure ()
  | block name kind => exact respects_bind (Draft.respects_addBlock name kind) fun _ => respects_pure ()
  | input id slot r => exact Draft.respects_bindInput id slot r
  | output id r => exact Draft.respects_bindOutput id r
  | breakpoints id values =>
      exact respects_bind (Draft.respects_registerBreakpoints id values) fun _ => respects_pure ()
  | table id axes values =>
      exact respects_bind (Draft.respects_registerTable id axes values) fun _ => respects_pure ()
  | normalizer set v => exact respects_bind (Draft.respects_addNormalizer set v) fun _ => respects_pure ()
  | lookup name t vs out =>
      exact respects_bind (Draft.respects_addLookup name t vs out) fun _ => respects_pure ()
  | function name t vs out =>
      exact respects_bind (Draft.respects_addFunction name t vs out) fun _ => respects_pure ()

namespace Draft

variable {α : Type} {d d' : Draft α} {s : Signal α} {i : Nat}

section Names

variable (hnames : d'.varIds = d.varIds)
include hnames

theorem exists_named {j : Nat} {x : Signal α} (hx : d.signals[j]? = some x) :
    ∃ y, d'.signals[j]? = some y ∧ y.varId = x.varId := by
  have hname := congrArg (·[j]?) hnames
  simp only [varIds, List.getElem?_map, Array.getElem?_toList, hx] at hname
  exact Option.map_eq_some_iff.mp hname

theorem Denotes.congr {r : Reference} {id : SignalId} (h : d.Denotes r id) : d'.Denotes r id := by
  cases r with
  | signal j => exact h
  | «variable» v =>
      obtain ⟨x, hx, rfl⟩ := h
      exact exists_named hnames hx

theorem Ties.congr {b : DraftBlock α} {port : Port} {id : SignalId} (h : d.Ties b port id) :
    d'.Ties b port id := by
  obtain ⟨r, hr, hid⟩ := h
  exact ⟨r, hr, hid.congr hnames⟩

/-- What is at fault with a port shows in the names of the signals. -/
theorem PortFault.congr {done : List (DraftBlock α)} {b : DraftBlock α} {port : Port} {e : ModelError α}
    (h : d.PortFault done b port e) : d'.PortFault done b port e := by
  cases h with
  | unbound hopen => exact .unbound hopen
  | undeclared hv hundeclared => exact .undeclared hv (hnames ▸ hundeclared)
  | taken hfirst hties₁ hties hx =>
      obtain ⟨y, hy, hname⟩ := exists_named hnames hx
      rw [← hname]
      exact .taken hfirst (hties₁.congr hnames) (hties.congr hnames) hy

theorem FaultAt.congr (hblocks : d'.blocks = d.blocks) {terminal : Terminal} {e : ModelError α}
    (h : d.FaultAt terminal e) : d'.FaultAt terminal e := by
  obtain ⟨b, hb, hfault⟩ := h
  refine ⟨b, hblocks ▸ hb, ?_⟩
  rw [hblocks]
  exact hfault.congr hnames

end Names

variable [Scalar α]

theorem FirstFault.unique (hd : d.Reachable) {p q : Terminal} {e e' : ModelError α}
    (h : d.FirstFault p e) (h' : d.FirstFault q e') : e = e' := by
  obtain ⟨log, hlog⟩ := hd.hasLog
  have hoffends : ∀ {terminal e}, d.Offends d.held? terminal e ↔ d.FaultAt terminal e :=
    offends_iff hlog.bound.tight
  rcases p.before_or_eq_or_after q with hlt | rfl | hlt
  · exact absurd h.fault (h'.first p e hlt)
  · exact (hoffends.mpr h.fault).unique hd.sound (hoffends.mpr h'.fault) fun q e hq hat =>
      h.first q e hq (hoffends.mp hat)
  · exact absurd h'.fault (h.first q e' hlt)

theorem build_error_iff (hd : d.Sound) {e : ModelError α} : d.build = .error e ↔ d.wire = .error e := by
  cases hwire : d.wire with
  | error e' =>
      have hbuild : d.build = .error e' := outcome_bind_error.mpr (.inl hwire)
      rw [hbuild]
  | ok w =>
      obtain ⟨m, hm⟩ := build_of_wire hd hwire
      rw [hm]
      exact ⟨nofun, nofun⟩

/-- Drafts of the same blocks and of signals of the same names fail to be built alike. -/
theorem build_error_congr (hd : d.Reachable) (hd' : d'.Reachable) (hnames : d'.varIds = d.varIds)
    (hblocks : d'.blocks = d.blocks) (e : ModelError α) : d.build = .error e ↔ d'.build = .error e := by
  rw [build_error_iff hd.sound, build_error_iff hd'.sound]
  rcases wire_cases hd.sound with ⟨m, hm, hnone⟩ | ⟨p, e₁, hfail, hfirst⟩
  · rcases wire_cases hd'.sound with ⟨m', hm', -⟩ | ⟨q, e₂, -, hfirst'⟩
    · rw [hm, hm']
      exact ⟨nofun, nofun⟩
    · exact absurd (hfirst'.fault.congr hnames.symm hblocks.symm) (hnone q e₂)
  · rcases wire_cases hd'.sound with ⟨m', -, hnone'⟩ | ⟨q, e₂, hfail', hfirst'⟩
    · exact absurd (hfirst.fault.congr hnames hblocks) (hnone' p e₁)
    · have hfirst₂ : d.FirstFault q e₂ :=
        ⟨hfirst'.fault.congr hnames.symm hblocks.symm, fun r e' hr hat =>
          hfirst'.first r e' hr (hat.congr hnames hblocks)⟩
      rw [hfail, hfail', hfirst.unique hd hfirst₂]

section Built

variable {m : Model α} {id : SignalId}

/-- A signal that needs no limiter stands in the model as it has been declared. -/
theorem built_free (hd : d.Sound) (hbuild : d.build = .ok m) (hs : d.signals[id.index]? = some s)
    (hfree : s.needsLimiter = false) : ∃ t, m.signal? id = some t ∧ t.unwired = s := by
  obtain ⟨w, -, hw, -, hext, hcomplete⟩ := build_ok hd hbuild
  obtain ⟨holder, htraced⟩ := Model.exists_trace hext hcomplete hw.edges
  obtain ⟨x, hx, rfl⟩ := hw.exists_signal hs
  obtain ⟨-, t, ht, hkept⟩ := htraced.free id x hx hfree
  exact ⟨t, ht, hkept.unwired⟩

theorem built_guards (hd : d.Sound) (hbuild : d.build = .ok m) (hs : d.signals[id.index]? = some s)
    (hneed : s.needsLimiter = true) : m.Guards id s := by
  obtain ⟨w, -, hw, -, hext, hcomplete⟩ := build_ok hd hbuild
  obtain ⟨holder, htraced⟩ := Model.exists_trace hext hcomplete hw.edges
  obtain ⟨x, hx, rfl⟩ := hw.exists_signal hs
  obtain ⟨p, u, t, hhalved⟩ := htraced.limited id x hx hneed
  obtain ⟨c, hc, hkind, hinputs, houtput⟩ := hhalved.limiter
  exact ⟨u, p, c, holder id, t, hhalved.front, (hhalved.renamed id x hx).symm, hc,
    hkind.trans (BlockKind.limiterBetween_eq _ _).symm, hinputs, houtput, hhalved.back, hhalved.label.1⟩

end Built

/-- What calls make of a draft. -/
def onwards (d : Draft α) (calls : List (DraftCall α)) : Draft α :=
  calls.foldl (fun d c => final c.run d) d

theorem final_signal (x : Signal α) (d : Draft α) :
    final (DraftCall.signal x).run d =
      if x.varId ∈ d.varIds then d else { d with signals := d.signals.push x.unwired } := by
  have hrun := addSignal_run x d
  split
  · rename_i hin
    rw [if_pos hin] at hrun
    exact final_of_error (run_discard_error.mpr hrun)
  · rename_i hnew
    rw [if_neg hnew] at hrun
    exact final_of_ok (run_bind_ok.mpr ⟨_, _, hrun, rfl⟩)

theorem after_append (name : String) (before more : List (DraftCall α)) (x : Signal α) :
    after name (before ++ .signal x :: more) =
      (final (DraftCall.signal x).run (after name before)).onwards more := by
  rw [after, List.foldl_append]
  rfl

theorem Twins.onwards (h : d.Twins s i d') (calls : List (DraftCall α)) :
    (d.onwards calls).Twins s i (d'.onwards calls) := by
  induction calls generalizing d d' with
  | nil => exact h
  | cons c calls ih => exact ih (c.respects_twins.final h)

/-- Declaring a signal as it is and declaring it afresh differ in that signal only. -/
theorem twins_signal (hnew : s.varId ∉ d.varIds) :
    (final (DraftCall.signal s).run d).Twins s d.signals.size
      (final (DraftCall.signal s.afresh).run d) := by
  have hnew' : s.afresh.varId ∉ d.varIds := hnew
  rw [final_signal, final_signal, if_neg hnew, if_neg hnew']
  refine ⟨rfl, fun j hj => ?_, Array.getElem?_push_size, Array.getElem?_push_size⟩
  rw [Array.getElem?_push, Array.getElem?_push, if_neg hj, if_neg hj]

/-- A signal without the mark is declared like a new one, and one whose ID is taken is not declared at all. -/
theorem after_afresh {name : String} {before : List (DraftCall α)}
    (h : s.limited = false ∨ s.varId ∈ (after name before).varIds) (more : List (DraftCall α)) :
    after name (before ++ .signal s.afresh :: more) = after name (before ++ .signal s :: more) := by
  rw [after_append, after_append, final_signal, final_signal]
  rcases h with hfresh | hin
  · have hsame : s.afresh.unwired = s.unwired := by
      unfold Signal.afresh Signal.unwired
      rw [hfresh]
    rw [hsame]
    rfl
  · have hin' : s.afresh.varId ∈ (after name before).varIds := hin
    rw [if_pos hin, if_pos hin']

/-- Two runs of the same calls, but that one declares a signal, which may come from another model, as it is
and the other one declares it afresh. Building fails alike in both. Where it succeeds, the models are the
same just if the signal has no mark of a limiter or its ID was taken. With the mark it stands unlimited in
the first model, also if a limit of it is finite, for which the second model gives it a limiter. -/
theorem redeclaration_outcome (name : String) (before more : List (DraftCall α)) (s : Signal α) :
    (∀ e, (after name (before ++ .signal s :: more)).build = .error e ↔
      (after name (before ++ .signal s.afresh :: more)).build = .error e) ∧
    ∀ m n, (after name (before ++ .signal s :: more)).build = .ok m →
      (after name (before ++ .signal s.afresh :: more)).build = .ok n →
      (m = n ↔ s.limited = false ∨ s.varId ∈ (after name before).varIds) ∧
      (s.varId ∉ (after name before).varIds →
        (s.limited = true → ∃ t, m.signal? ⟨(after name before).signals.size⟩ = some t ∧
          t.unwired = s.unwired) ∧
        (s.afresh.needsLimiter = true → n.Guards ⟨(after name before).signals.size⟩ s)) := by
  have hd := reachable_after name (before ++ .signal s :: more)
  have hd' := reachable_after name (before ++ .signal s.afresh :: more)
  have htwins : s.varId ∉ (after name before).varIds →
      (after name (before ++ .signal s :: more)).Twins s (after name before).signals.size
        (after name (before ++ .signal s.afresh :: more)) := by
    intro hnew
    rw [after_append, after_append]
    exact (twins_signal hnew).onwards more
  constructor
  · intro e
    by_cases hin : s.varId ∈ (after name before).varIds
    · rw [after_afresh (.inr hin)]
    · exact build_error_congr hd hd' (htwins hin).varIds_eq (by rw [(htwins hin).rest]) e
  · intro m n hm hn
    have hfree : s.varId ∉ (after name before).varIds → s.limited = true →
        ∃ t, m.signal? ⟨(after name before).signals.size⟩ = some t ∧ t.unwired = s.unwired := by
      intro hnew hlimited
      refine built_free hd.sound hm (htwins hnew).first ?_
      rw [Signal.needsLimiter_unwired, Signal.needsLimiter, hlimited]
      rfl
    have hguards : s.varId ∉ (after name before).varIds → s.afresh.needsLimiter = true →
        n.Guards ⟨(after name before).signals.size⟩ s := fun hnew hneed =>
      (built_guards hd'.sound hn (htwins hnew).second hneed : n.Guards _ s.afresh)
    refine ⟨⟨fun hsame => ?_, fun h => ?_⟩, fun hnew => ⟨hfree hnew, hguards hnew⟩⟩
    · subst hsame
      by_contra hnot
      obtain ⟨hmarked, hnew⟩ := not_or.mp hnot
      obtain ⟨t, ht, hunwired⟩ := hfree hnew (Bool.eq_true_of_not_eq_false hmarked)
      cases hneed : s.afresh.needsLimiter with
      | true =>
          obtain ⟨u, -, -, -, -, hu, hne, -⟩ := hguards hnew hneed
          cases ht.symm.trans hu
          exact hne (congrArg Signal.varId hunwired :)
      | false =>
          obtain ⟨t', ht', hunwired'⟩ := built_free hd'.sound hn (htwins hnew).second hneed
          cases ht.symm.trans ht'
          exact hmarked (congrArg Signal.limited (hunwired.symm.trans hunwired') :)
    · rw [after_afresh h] at hn
      exact Except.ok.inj (hm.symm.trans hn)

/-- One signal, with two limits. -/
def bounded : Draft Float :=
  .after "bounded" [.signal ((Signal.declare "Y" "y" "").withLimits (some 0) (some 1))]

/-- The half behind the limiter, taken from the model and declared again, gets no limiter. -/
theorem bounded_redeclared :
    ∃ (m n n' : Model Float) (s : Signal Float), bounded.build = .ok m ∧ m.signal? ⟨1⟩ = some s ∧
      s.varId = "Y" ∧ (after "again" [.signal s]).build = .ok n ∧
      (after "again" [.signal s.afresh]).build = .ok n' ∧ n ≠ n' ∧
      (∃ t, n.signal? ⟨0⟩ = some t ∧ t.unwired = s.unwired) ∧ n'.Guards ⟨0⟩ s := by
  have hbuilds : bounded.build.toOption.any (fun m => (m.signal? ⟨1⟩).any fun s =>
      s.varId == "Y" && s.limited && s.afresh.needsLimiter &&
        (after "again" [.signal s]).build.toOption.any (fun _ => true) &&
        (after "again" [.signal s.afresh]).build.toOption.any fun _ => true) = true := by
    decide +kernel
  obtain ⟨m, hm, hany⟩ := outcome_of_any hbuilds
  obtain ⟨s, hs, hall⟩ := Option.any_eq_true .. |>.mp hany
  simp only [Bool.and_eq_true, beq_iff_eq] at hall
  obtain ⟨⟨⟨⟨hvarId, hlimited⟩, hneed⟩, hfirst⟩, hsecond⟩ := hall
  obtain ⟨n, hn, -⟩ := outcome_of_any hfirst
  obtain ⟨n', hn', -⟩ := outcome_of_any hsecond
  obtain ⟨hsame, hlost⟩ := (redeclaration_outcome "again" [] [] s).2 n n' hn hn'
  have hnew : s.varId ∉ (after "again" [] : Draft Float).varIds := List.not_mem_nil
  refine ⟨m, n, n', s, hm, hs, hvarId, hn, hn', fun heq => ?_, (hlost hnew).1 hlimited,
    (hlost hnew).2 hneed⟩
  rcases hsame.mp heq with hfresh | hin
  · rw [hlimited] at hfresh
    cases hfresh
  · exact hnew hin

end Draft

end BlockDiagram
