import BlockDiagram.Json.Reader
import BlockDiagram.Proofs.Data.Reading
import BlockDiagram.Proofs.Json.Numbers
/-! Reading JSON back: the text of a datum is read as the node of the datum, in which reals that are not
finite are missing. -/

namespace BlockDiagram.Json

/-- The tokens between brackets: those of the members, with a comma between any two. -/
def between (opening closing : Token) (members : List (List Token)) : List Token :=
  opening :: ([Token.comma].intercalate members ++ [closing])

mutual

/-- The tokens of a datum. -/
def tokens : Datum → List Token
  | .flag b => [.leaf (.ofFlag b)]
  | .natural n => [.leaf (.ofNatural n)]
  | .real x => [.leaf (.ofKept Float.isFinite x)]
  | .text s => [.string (some s)]
  | .list items => between .openList .closeList (tokensOfItems items)
  | .record fields => between .openMap .closeMap (tokensOfFields fields)

def tokensOfItems : List Datum → List (List Token)
  | [] => []
  | d :: rest => tokens d :: tokensOfItems rest

def tokensOfFields : List (String × Datum) → List (List Token)
  | [] => []
  | (name, d) :: rest => (.string (some name) :: .colon :: tokens d) :: tokensOfFields rest

end

mutual

/-- Every natural number of the datum is one of a word. -/
def InWords : Datum → Prop
  | .natural n => n < wordSize
  | .list items => ItemsInWords items
  | .record fields => FieldsInWords fields
  | _ => True

def ItemsInWords : List Datum → Prop
  | [] => True
  | d :: rest => InWords d ∧ ItemsInWords rest

def FieldsInWords : List (String × Datum) → Prop
  | [] => True
  | (_, d) :: rest => InWords d ∧ FieldsInWords rest

end

section Writing

/-- The text comes apart into the tokens, whatever comes next, unless that could be a part of a number. -/
def Spells (text : String) (ts : List Token) : Prop :=
  ∀ {rest : List Char} {more : List Token}, Ends rest → Lexes rest more →
    Lexes (text.toList ++ rest) (ts ++ more)

theorem ends_of_cons {c : Char} (hc : isNumberChar c = false) (cs : List Char) : Ends (c :: cs) := by
  rintro _ ⟨⟩
  exact hc

theorem Spells.append_colon {name text : String} {ts : List Token} (h : Spells text ts) :
    Spells (quote name ++ ": " ++ text) (.string (some name) :: .colon :: ts) := by
  intro rest more hends hmore
  rw [String.toList_append, String.toList_append, List.append_assoc, List.append_assoc]
  exact .string name (.colon (.blank rfl (h hends hmore)))

/-- Members one a line, each behind a comma but the first. -/
theorem Spells.members {level : Nat} {texts : List String} {members : List (List Token)}
    (h : List.Forall₂ Spells texts members) :
    Spells (",\n".intercalate (texts.map (indent level ++ ·))) ([Token.comma].intercalate members) := by
  induction h with
  | nil =>
      intro rest more _ hmore
      exact hmore
  | @cons text ts texts members hfirst hrest ih =>
      intro rest more hends hmore
      cases hrest with
      | nil =>
          rw [List.map_cons, List.map_nil, String.intercalate_singleton, List.intercalate_singleton,
            String.toList_append, List.append_assoc]
          exact .indent level (hfirst hends hmore)
      | cons =>
          rw [List.map_cons, List.map_cons, String.intercalate_cons_cons, List.intercalate_cons_cons,
            String.toList_append, String.toList_append, String.toList_append]
          simp only [List.append_assoc]
          refine .indent level (hfirst (ends_of_cons rfl _) ?_)
          exact .comma (.blank rfl (ih hends hmore))

theorem Spells.bracket {level : Nat} {opening closing : String} {opens closes : Token}
    (hopens : ∀ {cs ts}, Lexes cs ts → Lexes (opening.toList ++ cs) (opens :: ts))
    (hcloses : ∀ {cs ts}, Lexes cs ts → Lexes (closing.toList ++ cs) (closes :: ts))
    {texts : List String} {members : List (List Token)} (h : List.Forall₂ Spells texts members) :
    Spells (bracket level opening closing texts) (between opens closes members) := by
  intro rest more _ hmore
  have hend : Lexes (closing.toList ++ rest) (closes :: more) := hcloses hmore
  have htokens : between opens closes members ++ more =
      opens :: ([Token.comma].intercalate members ++ (closes :: more)) := by
    rw [between, List.cons_append, List.append_assoc]
    rfl
  rw [htokens, Json.bracket]
  split
  · next hempty =>
      cases h with
      | nil =>
          rw [String.toList_append, List.append_assoc]
          exact hopens hend
      | cons => cases hempty
  · simp only [String.toList_append, List.append_assoc]
    refine hopens (.blank rfl (Spells.members h (ends_of_cons rfl _) ?_))
    exact .blank rfl (.indent level hend)

mutual

theorem spells_writeAt (level : Nat) (d : Datum) (h : InWords d) : Spells (writeAt level d) (tokens d) := by
  cases d with
  | flag b =>
      intro rest more _ hmore
      exact .flag b hmore
  | natural n =>
      intro rest more hends hmore
      exact .number (numberText_natural h) hends hmore
  | real x =>
      intro rest more hends hmore
      rw [writeAt, tokens, Leaf.ofKept]
      split
      · next hfinite => exact .number (numberText_render hfinite) hends hmore
      · next hinfinite =>
          rw [render_of_not_finite hinfinite]
          exact .null hmore
  | text s =>
      intro rest more _ hmore
      exact .string s hmore
  | list items =>
      exact Spells.bracket Lexes.openList Lexes.closeList (spells_writeItems (level + 1) items h)
  | record fields =>
      exact Spells.bracket Lexes.openMap Lexes.closeMap (spells_writeFields (level + 1) fields h)

theorem spells_writeItems (level : Nat) (items : List Datum) (h : ItemsInWords items) :
    List.Forall₂ Spells (writeItems level items) (tokensOfItems items) := by
  cases items with
  | nil => exact .nil
  | cons d rest => exact .cons (spells_writeAt level d h.1) (spells_writeItems level rest h.2)

theorem spells_writeFields (level : Nat) (fields : List (String × Datum)) (h : FieldsInWords fields) :
    List.Forall₂ Spells (writeFields level fields) (tokensOfFields fields) := by
  cases fields with
  | nil => exact .nil
  | cons f rest =>
      exact .cons (Spells.append_colon (spells_writeAt level f.2 h.1)) (spells_writeFields level rest h.2)

end

end Writing

section Reading

/-- The tokens are read as the node, whatever comes next. -/
def ReadsAs (ts : List Token) (n : Node) : Prop :=
  ∀ rest, ∃ h : rest.length < (ts ++ rest).length, value? (ts ++ rest) = some (n, ⟨rest, h⟩)

theorem ReadsAs.leaf (l : Leaf) : ReadsAs [.leaf l] (.leaf l) := by
  intro rest
  refine ⟨Nat.lt_succ_self _, ?_⟩
  change value? (.leaf l :: rest) = _
  rw [value?]

theorem ReadsAs.string (s : String) : ReadsAs [.string (some s)] (.leaf (.ofText s)) := by
  intro rest
  refine ⟨Nat.lt_succ_self _, ?_⟩
  change value? (.string (some s) :: rest) = _
  rw [value?]
  rfl

theorem value?_closeList (ts : List Token) : value? (.closeList :: ts) = none := by
  rw [value?.eq_def]

/-- What are items to the end of a list make a list. -/
theorem value?_openList {ts rest : List Token} {items : List Node} {h : rest.length < ts.length}
    (hitems : items? ts = some (items, ⟨rest, h⟩)) :
    ∃ h' : rest.length < ts.length + 1, value? (.openList :: ts) = some (.list items, ⟨rest, h'⟩) := by
  refine ⟨Nat.lt_succ_of_lt h, ?_⟩
  rw [value?, hitems]
  · rfl
  · rintro more rfl
    rw [items?, value?_closeList] at hitems
    cases hitems

theorem value?_openMap {ts rest : List Token} {entries : List (Node × Node)} {h : rest.length < ts.length}
    (hentries : entries? ts = some (entries, ⟨rest, h⟩)) :
    ∃ h' : rest.length < ts.length + 1, value? (.openMap :: ts) = some (.map entries, ⟨rest, h'⟩) := by
  refine ⟨Nat.lt_succ_of_lt h, ?_⟩
  rw [value?, hentries]
  · rfl
  · rintro more rfl
    rw [entries?] at hentries
    · cases hentries
    · rintro _ _ ⟨⟩

theorem items?_last {ts : List Token} {n : Node} (h : ReadsAs ts n) (rest : List Token) :
    ∃ h : rest.length < (ts ++ .closeList :: rest).length,
      items? (ts ++ .closeList :: rest) = some ([n], ⟨rest, h⟩) := by
  obtain ⟨hlt, hvalue⟩ := h (.closeList :: rest)
  refine ⟨Nat.lt_of_succ_lt hlt, ?_⟩
  rw [items?, hvalue]
  rfl

theorem items?_cons {ts more rest : List Token} {n : Node} {items : List Node} (h : ReadsAs ts n)
    {hmore : rest.length < more.length} (hitems : items? more = some (items, ⟨rest, hmore⟩)) :
    ∃ h : rest.length < (ts ++ .comma :: more).length,
      items? (ts ++ .comma :: more) = some (n :: items, ⟨rest, h⟩) := by
  obtain ⟨hlt, hvalue⟩ := h (.comma :: more)
  refine ⟨Nat.lt_trans hmore (Nat.lt_of_succ_lt hlt), ?_⟩
  rw [items?, hvalue, Option.bind_eq_bind, Option.bind_some]
  dsimp only
  rw [hitems]
  rfl

/-- The tokens of an entry are read as a name and a node. -/
def ReadsAsEntry (ts : List Token) (e : Node × Node) : Prop :=
  ∃ name value, ts = .string (some name) :: .colon :: value ∧ e.1 = .leaf (.ofText name) ∧ ReadsAs value e.2

theorem entries?_last {ts : List Token} {e : Node × Node} (h : ReadsAsEntry ts e) (rest : List Token) :
    ∃ h : rest.length < (ts ++ .closeMap :: rest).length,
      entries? (ts ++ .closeMap :: rest) = some ([e], ⟨rest, h⟩) := by
  obtain ⟨key, node⟩ := e
  obtain ⟨name, value, rfl, rfl, hreads⟩ := h
  obtain ⟨hlt, hvalue⟩ := hreads (.closeMap :: rest)
  refine ⟨Nat.lt_of_succ_lt (Nat.lt_succ_of_lt (Nat.lt_succ_of_lt hlt)), ?_⟩
  change entries? (.string (some name) :: .colon :: (value ++ .closeMap :: rest)) = _
  rw [entries?, hvalue]
  rfl

theorem entries?_cons {ts more rest : List Token} {e : Node × Node} {entries : List (Node × Node)}
    (h : ReadsAsEntry ts e) {hmore : rest.length < more.length}
    (hentries : entries? more = some (entries, ⟨rest, hmore⟩)) :
    ∃ h : rest.length < (ts ++ .comma :: more).length,
      entries? (ts ++ .comma :: more) = some (e :: entries, ⟨rest, h⟩) := by
  obtain ⟨key, node⟩ := e
  obtain ⟨name, value, rfl, rfl, hreads⟩ := h
  obtain ⟨hlt, hvalue⟩ := hreads (.comma :: more)
  refine ⟨Nat.lt_trans hmore (Nat.lt_of_succ_lt (Nat.lt_succ_of_lt (Nat.lt_succ_of_lt hlt))), ?_⟩
  change entries? (.string (some name) :: .colon :: (value ++ .comma :: more)) = _
  rw [entries?, hvalue]
  dsimp only
  rw [Option.bind_eq_bind, Option.bind_some]
  dsimp only
  rw [hentries]
  rfl

theorem items?_members {members : List (List Token)} {items : List Node} (hnonempty : members ≠ [])
    (h : List.Forall₂ ReadsAs members items) (rest : List Token) :
    ∃ h : rest.length < ([Token.comma].intercalate members ++ .closeList :: rest).length,
      items? ([Token.comma].intercalate members ++ .closeList :: rest) = some (items, ⟨rest, h⟩) := by
  induction h with
  | nil => exact absurd rfl hnonempty
  | @cons ts n members items hfirst hmembers ih =>
      cases hmembers with
      | nil =>
          rw [List.intercalate_singleton]
          exact items?_last hfirst rest
      | @cons us m members items hsecond hmembers =>
          obtain ⟨hlt, hitems⟩ := ih (List.cons_ne_nil us members)
          rw [List.intercalate_cons_cons, List.append_assoc, List.append_assoc]
          exact items?_cons hfirst hitems

theorem entries?_members {members : List (List Token)} {entries : List (Node × Node)}
    (hnonempty : members ≠ []) (h : List.Forall₂ ReadsAsEntry members entries) (rest : List Token) :
    ∃ h : rest.length < ([Token.comma].intercalate members ++ .closeMap :: rest).length,
      entries? ([Token.comma].intercalate members ++ .closeMap :: rest) = some (entries, ⟨rest, h⟩) := by
  induction h with
  | nil => exact absurd rfl hnonempty
  | @cons ts e members entries hfirst hmembers ih =>
      cases hmembers with
      | nil =>
          rw [List.intercalate_singleton]
          exact entries?_last hfirst rest
      | @cons us e' members entries hsecond hmembers =>
          obtain ⟨hlt, hentries⟩ := ih (List.cons_ne_nil us members)
          rw [List.intercalate_cons_cons, List.append_assoc, List.append_assoc]
          exact entries?_cons hfirst hentries

theorem between_append (opening closing : Token) (members : List (List Token)) (rest : List Token) :
    between opening closing members ++ rest =
      opening :: ([Token.comma].intercalate members ++ closing :: rest) := by
  rw [between, List.cons_append, List.append_assoc, List.singleton_append]

theorem ReadsAs.list {members : List (List Token)} {items : List Node}
    (h : List.Forall₂ ReadsAs members items) :
    ReadsAs (between .openList .closeList members) (.list items) := by
  intro rest
  rw [between_append]
  cases h with
  | nil =>
      refine ⟨Nat.lt_trans (Nat.lt_succ_self _) (Nat.lt_succ_self _), ?_⟩
      change value? (.openList :: .closeList :: rest) = _
      rw [value?]
      rfl
  | cons hfirst hmembers =>
      obtain ⟨_, hitems⟩ := items?_members (List.cons_ne_nil _ _) (.cons hfirst hmembers) rest
      exact value?_openList hitems

theorem ReadsAs.map {members : List (List Token)} {entries : List (Node × Node)}
    (h : List.Forall₂ ReadsAsEntry members entries) :
    ReadsAs (between .openMap .closeMap members) (.map entries) := by
  intro rest
  rw [between_append]
  cases h with
  | nil =>
      refine ⟨Nat.lt_trans (Nat.lt_succ_self _) (Nat.lt_succ_self _), ?_⟩
      change value? (.openMap :: .closeMap :: rest) = _
      rw [value?]
      rfl
  | cons hfirst hmembers =>
      obtain ⟨_, hentries⟩ := entries?_members (List.cons_ne_nil _ _) (.cons hfirst hmembers) rest
      exact value?_openMap hentries

mutual

theorem readsAs_tokens (d : Datum) : ReadsAs (tokens d) (d.nodeKeeping Float.isFinite) := by
  cases d with
  | text s => exact .string s
  | list items => exact .list (readsAs_items items)
  | record fields => exact .map (readsAs_fields fields)
  | _ => exact .leaf _

theorem readsAs_items (items : List Datum) :
    List.Forall₂ ReadsAs (tokensOfItems items) (Datum.nodesKeeping Float.isFinite items) := by
  cases items with
  | nil => exact .nil
  | cons d rest => exact .cons (readsAs_tokens d) (readsAs_items rest)

theorem readsAs_fields (fields : List (String × Datum)) :
    List.Forall₂ ReadsAsEntry (tokensOfFields fields) (Datum.entriesKeeping Float.isFinite fields) := by
  cases fields with
  | nil => exact .nil
  | cons f rest => exact .cons ⟨f.1, tokens f.2, rfl, rfl, readsAs_tokens f.2⟩ (readsAs_fields rest)

end

/-- The text of a datum is read as its node. -/
theorem read?_write {d : Datum} (h : InWords d) :
    read? (write d) = some (d.nodeKeeping Float.isFinite) := by
  have hends : Ends [] := by
    rintro _ ⟨⟩
  have htokens : tokens? (write d).toList = some (tokens d ++ []) := by
    have hspelt := (spells_writeAt 0 d h hends .done).tokens?
    rwa [List.append_nil] at hspelt
  obtain ⟨_, hvalue⟩ := readsAs_tokens d []
  rw [read?, htokens, Option.bind_eq_bind, Option.bind_some, hvalue]
  rfl

end Reading

end BlockDiagram.Json
