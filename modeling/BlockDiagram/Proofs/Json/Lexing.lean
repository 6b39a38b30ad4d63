import BlockDiagram.Json.Token
import BlockDiagram.Json.Writer
import Mathlib.Data.List.Basic
/-! Lexing what was written: the text of a datum has the tokens of the datum, in whatever lines and
columns they stand. -/

namespace BlockDiagram.Json

/-- The characters come apart into these tokens. -/
inductive Lexes : List Char → List Token → Prop where
  | done : Lexes [] []
  | blank {c : Char} {cs : List Char} {ts : List Token} (hblank : isBlank c = true) (h : Lexes cs ts) :
      Lexes (c :: cs) ts
  | token {c : Char} {cs rest : List Char} {t : Token} {ts : List Token} (hsolid : isBlank c = false)
      (hread : token? (c :: cs) = some (t, rest)) (hshorter : rest.length ≤ cs.length)
      (h : Lexes rest ts) : Lexes (c :: cs) (t :: ts)

/-- Every token takes a character, so that fuel for each character and one more is enough. -/
theorem Lexes.tokensWithin? {cs : List Char} {ts : List Token} (h : Lexes cs ts) {fuel : Nat}
    (hfuel : cs.length < fuel) : tokensWithin? fuel cs = some ts := by
  induction h generalizing fuel with
  | done =>
      obtain ⟨fuel, rfl⟩ := Nat.exists_eq_add_one_of_ne_zero (Nat.ne_zero_of_lt hfuel)
      rfl
  | blank hblank h ih =>
      have hrest := ih (Nat.lt_of_succ_lt hfuel)
      obtain ⟨fuel, rfl⟩ := Nat.exists_eq_add_one_of_ne_zero (Nat.ne_zero_of_lt hfuel)
      rw [Json.tokensWithin?, List.dropWhile_cons_of_pos hblank, ← Json.tokensWithin?]
      exact hrest
  | @token c cs rest t ts hsolid hread hshorter h ih =>
      obtain ⟨fuel, rfl⟩ := Nat.exists_eq_add_one_of_ne_zero (Nat.ne_zero_of_lt hfuel)
      have hrest : Json.tokensWithin? fuel rest = some ts :=
        ih (Nat.lt_of_le_of_lt hshorter (Nat.lt_of_succ_lt_succ hfuel))
      rw [Json.tokensWithin?, List.dropWhile_cons_of_neg (by rw [hsolid]; decide)]
      dsimp only
      rw [hread, Option.bind_eq_bind, Option.bind_some]
      dsimp only
      rw [hrest]
      rfl

theorem Lexes.tokens? {cs : List Char} {ts : List Token} (h : Lexes cs ts) : tokens? cs = some ts :=
  h.tokensWithin? (Nat.lt_succ_self _)

theorem Lexes.blanks {bs cs : List Char} {ts : List Token} (hblank : ∀ c ∈ bs, isBlank c = true)
    (h : Lexes cs ts) : Lexes (bs ++ cs) ts := by
  induction bs with
  | nil => exact h
  | cons b bs ih =>
      exact .blank (hblank b List.mem_cons_self) (ih fun c hc => hblank c (List.mem_cons_of_mem b hc))

theorem Lexes.indent (level : Nat) {cs : List Char} {ts : List Token} (h : Lexes cs ts) :
    Lexes ((indent level).toList ++ cs) ts := by
  refine h.blanks fun c hc => ?_
  rw [Json.indent, String.toList_ofList] at hc
  rw [List.eq_of_mem_replicate hc]
  rfl

/-- Tokens that are one character. -/
theorem Lexes.mark {c : Char} {t : Token} (hmark : ∀ rest, token? (c :: rest) = some (t, rest))
    (hsolid : isBlank c = false) {cs : List Char} {ts : List Token} (h : Lexes cs ts) :
    Lexes (c :: cs) (t :: ts) :=
  .token hsolid (hmark cs) (Nat.le_refl _) h

theorem Lexes.openList {cs : List Char} {ts : List Token} (h : Lexes cs ts) :
    Lexes ('[' :: cs) (.openList :: ts) := h.mark (fun _ => rfl) rfl

theorem Lexes.closeList {cs : List Char} {ts : List Token} (h : Lexes cs ts) :
    Lexes (']' :: cs) (.closeList :: ts) := h.mark (fun _ => rfl) rfl

theorem Lexes.openMap {cs : List Char} {ts : List Token} (h : Lexes cs ts) :
    Lexes ('\x7b' :: cs) (.openMap :: ts) := h.mark (fun _ => rfl) rfl

theorem Lexes.closeMap {cs : List Char} {ts : List Token} (h : Lexes cs ts) :
    Lexes ('\x7d' :: cs) (.closeMap :: ts) := h.mark (fun _ => rfl) rfl

theorem Lexes.comma {cs : List Char} {ts : List Token} (h : Lexes cs ts) :
    Lexes (',' :: cs) (.comma :: ts) := h.mark (fun _ => rfl) rfl

theorem Lexes.colon {cs : List Char} {ts : List Token} (h : Lexes cs ts) :
    Lexes (':' :: cs) (.colon :: ts) := h.mark (fun _ => rfl) rfl

theorem Lexes.flag (b : Bool) {cs : List Char} {ts : List Token} (h : Lexes cs ts) :
    Lexes ((if b then "true" else "false").toList ++ cs) (.leaf (.ofFlag b) :: ts) := by
  cases b
  · exact .token rfl rfl (Nat.le_add_right _ 4) h
  · exact .token rfl rfl (Nat.le_add_right _ 3) h

theorem Lexes.null {cs : List Char} {ts : List Token} (h : Lexes cs ts) :
    Lexes ("null".toList ++ cs) (.leaf .null :: ts) :=
  .token rfl rfl (Nat.le_add_right _ 3) h

section Strings

/-- The code of a control character is its number in four hexadecimal digits. -/
theorem unitDigits {n : Nat} (h : n < 32) :
    ∃ a b c d, List.replicate (4 - (Nat.toDigits 16 n).length) '0' ++ Nat.toDigits 16 n = [a, b, c, d] ∧
      Digits.nat? 16 [a, b, c, d] = some n ∧ Piece.ofUnit n = .char (Char.ofNat n) := by
  have hall : ∀ n < 32,
      let digits := List.replicate (4 - (Nat.toDigits 16 n).length) '0' ++ Nat.toDigits 16 n
      digits.length = 4 ∧ Digits.nat? 16 digits = some n ∧ Piece.ofUnit n = .char (Char.ofNat n) := by
    decide
  obtain ⟨hlength, hread, hunit⟩ := hall n h
  match hdigits : List.replicate (4 - (Nat.toDigits 16 n).length) '0' ++ Nat.toDigits 16 n, hlength with
  | [a, b, c, d], _ => exact ⟨a, b, c, d, rfl, hdigits ▸ hread, hunit⟩

theorem string?_plain {c : Char} (hquote : c ≠ '"') (hescape : c ≠ '\\') (hcontrol : ¬ c.toNat < 32)
    (rest : List Char) :
    string? (c :: rest) = (string? rest).bind fun r => some (.char c :: r.1, r.2) := by
  rw [string?.eq_def]
  split
  · next h => cases h
  · next h => exact absurd (List.cons.inj h).1 hquote
  · next h => exact absurd (List.cons.inj h).1 hescape
  · next h => exact absurd (List.cons.inj h).1 hescape
  · next h =>
      obtain ⟨rfl, rfl⟩ := List.cons.inj h
      rw [if_neg hcontrol]
      rfl

theorem string?_escape (c : Char) (rest : List Char) :
    string? (escape c ++ rest) = (string? rest).bind fun r => some (.char c :: r.1, r.2) := by
  rw [escape.eq_def]
  split
  · rfl
  · rfl
  · rfl
  · rfl
  · rfl
  · next hquote hescape hline hreturn htab =>
      split
      · next hcode =>
          rw [← Char.ofNat_toNat c, hcode]
          rfl
      · split
        · next hcode =>
            rw [← Char.ofNat_toNat c, hcode]
            rfl
        · split
          · next hcontrol =>
              obtain ⟨a, b, d, e, hdigits, hread, hunit⟩ := unitDigits hcontrol
              rw [Char.ofNat_toNat] at hunit
              dsimp only
              rw [List.append_assoc ['\\', 'u'], hdigits]
              change (Digits.nat? 16 [a, b, d, e]).bind (fun unit =>
                (string? rest).bind fun r => some (Piece.ofUnit unit :: r.1, r.2)) = _
              rw [hread, Option.bind_some, hunit]
          · next hcontrol => exact string?_plain hquote hescape hcontrol rest

theorem string?_flatMap (cs rest : List Char) :
    string? (cs.flatMap escape ++ '"' :: rest) = some (cs.map .char, rest) := by
  induction cs with
  | nil => rfl
  | cons c cs ih => rw [List.flatMap_cons, List.append_assoc, string?_escape, ih]; rfl

theorem join?_chars (cs : List Char) : Piece.join? (cs.map .char) = some cs := by
  induction cs with
  | nil => rfl
  | cons c cs ih => rw [List.map_cons, Piece.join?, ih]; rfl

theorem Lexes.string (s : String) {cs : List Char} {ts : List Token} (h : Lexes cs ts) :
    Lexes ((quote s).toList ++ cs) (.string (some s) :: ts) := by
  have htext : (quote s).toList ++ cs = '"' :: (s.toList.flatMap escape ++ '"' :: cs) := by
    simp only [quote, String.toList_append, String.toList_ofList, List.append_assoc]
    rfl
  rw [htext]
  refine .token rfl ?_ (by simp only [List.length_append, List.length_cons]; omega) h
  change (string? (s.toList.flatMap escape ++ '"' :: cs)).map (fun r =>
    (Token.string ((Piece.join? r.1).map String.ofList), r.2)) = _
  rw [string?_flatMap, Option.map_some, join?_chars, Option.map_some, String.ofList_toList]

end Strings

section Numbers

/-- What may follow a number: nothing that could be a part of it. -/
def Ends (rest : List Char) : Prop := ∀ c ∈ rest.head?, isNumberChar c = false

/-- A text that is a number from end to end. -/
structure NumberText (cs : List Char) (l : Leaf) : Prop where
  nonempty : cs ≠ []
  chars : ∀ c ∈ cs, isNumberChar c = true
  read : number? cs = some l

theorem Ends.takeWhile {rest : List Char} (h : Ends rest) : rest.takeWhile isNumberChar = [] := by
  cases rest with
  | nil => rfl
  | cons c rest => exact List.takeWhile_cons_of_neg (by rw [h c rfl]; decide)

theorem Ends.dropWhile {rest : List Char} (h : Ends rest) : rest.dropWhile isNumberChar = rest := by
  cases rest with
  | nil => rfl
  | cons c rest => exact List.dropWhile_cons_of_neg (by rw [h c rfl]; decide)

/-- No other token begins with a character of a number. -/
theorem token?_number {c : Char} (hc : isNumberChar c = true) (cs : List Char) :
    token? (c :: cs) = (number? ((c :: cs).takeWhile isNumberChar)).map fun l =>
      (.leaf l, (c :: cs).dropWhile isNumberChar) := by
  have hother : ∀ {d : Char} {ds : List Char}, isNumberChar d = false → c :: cs ≠ d :: ds := by
    intro d ds hd h
    rw [(List.cons.inj h).1, hd] at hc
    cases hc
  rw [token?.eq_def]
  split
  all_goals first
    | rfl
    | next h => exact absurd h (hother rfl)

theorem Lexes.number {cs : List Char} {l : Leaf} (hnumber : NumberText cs l) {rest : List Char}
    {ts : List Token} (hends : Ends rest) (h : Lexes rest ts) : Lexes (cs ++ rest) (.leaf l :: ts) := by
  obtain ⟨hnonempty, hchars, hread⟩ := hnumber
  cases cs with
  | nil => exact absurd rfl hnonempty
  | cons c cs =>
      have hc := hchars c List.mem_cons_self
      have hsolid : isBlank c = false := by
        by_contra hblank
        simp only [isBlank, Bool.or_eq_true, decide_eq_true_eq, Bool.not_eq_false] at hblank
        obtain ((rfl | rfl) | rfl) | rfl := hblank <;> exact absurd hc (by decide)
      refine .token hsolid ?_ (by simp) h
      change token? (c :: (cs ++ rest)) = _
      rw [token?_number hc, ← List.cons_append, List.takeWhile_append_of_pos hchars,
        List.dropWhile_append_of_pos hchars, hends.takeWhile, hends.dropWhile, List.append_nil, hread]
      rfl

end Numbers

end BlockDiagram.Json
