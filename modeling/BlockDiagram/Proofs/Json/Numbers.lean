import BlockDiagram.Proofs.Decimal.Shortest
import BlockDiagram.Proofs.Json.Lexing
/-! Numbers in JSON: the text of a number is read as the literal that it is. -/

namespace BlockDiagram

namespace Literal

/-- The text of an exponent, which may be missing. -/
inductive Power : List Char → Int → Prop where
  | missing : Power [] 0
  | given {cs : List Char} {power : Int} (h : exponent? cs = some power) : Power ('e' :: cs) power

/-- The text of a fraction, which is missing if it has no digits. -/
def point (fraction : List Char) : List Char := if fraction = [] then [] else '.' :: fraction

/-- A number as it is written: its whole part, its fraction and its exponent. -/
structure Parts (whole fraction exponent : List Char) (power : Int) : Prop where
  wholeDigits : ∀ c ∈ whole, isDigit c = true
  nonempty : whole ≠ []
  /-- No needless zero in front. -/
  leading : whole.head? = some '0' → whole.length = 1
  fractionDigits : ∀ c ∈ fraction, isDigit c = true
  power : Power exponent power

section Parts

variable {whole fraction exponent : List Char} {power : Int}

theorem takeWhile_isDigit {cs rest : List Char} (hdigits : ∀ c ∈ cs, isDigit c = true)
    (hrest : ∀ c ∈ rest.head?, isDigit c = false) :
    (cs ++ rest).takeWhile isDigit = cs ∧ (cs ++ rest).dropWhile isDigit = rest := by
  rw [List.takeWhile_append_of_pos hdigits, List.dropWhile_append_of_pos hdigits]
  cases rest with
  | nil => exact ⟨List.append_nil cs, rfl⟩
  | cons c rest =>
      have hc : ¬ isDigit c = true := by rw [hrest c rfl]; decide
      rw [List.takeWhile_cons_of_neg hc, List.dropWhile_cons_of_neg hc, List.append_nil]
      exact ⟨rfl, rfl⟩

theorem Power.head? (h : Power exponent power) : ∀ c ∈ exponent.head?, isDigit c = false := by
  cases h with
  | missing => rintro _ ⟨⟩
  | given =>
      rintro _ ⟨⟩
      decide

theorem point_head? (h : Power exponent power) :
    ∀ c ∈ (point fraction ++ exponent).head?, isDigit c = false := by
  rw [point]
  split
  · exact h.head?
  · rintro _ ⟨⟩
    decide

theorem magnitude?_parts (h : Parts whole fraction exponent power) :
    magnitude? (whole ++ (point fraction ++ exponent)) =
      some ⟨natOfDigits (whole ++ fraction), power - fraction.length⟩ := by
  obtain ⟨htake, hdrop⟩ := takeWhile_isDigit h.wholeDigits (@point_head? fraction _ _ h.power)
  have hwhole : whole.isEmpty = false := List.isEmpty_eq_false_iff.mpr h.nonempty
  obtain ⟨hfraction, hrest⟩ := takeWhile_isDigit h.fractionDigits h.power.head?
  rw [magnitude?, htake, hdrop, hwhole]
  cases fraction with
  | nil =>
      cases h.power with
      | missing => rfl
      | @given cs _ hread =>
          change (exponent? cs).map (fun power => (⟨natOfDigits (whole ++ []), power - 0⟩ : Decimal)) = _
          rw [hread]
          rfl
  | cons c cs =>
      rw [point, if_neg (List.cons_ne_nil c cs), List.cons_append]
      simp only [hfraction, hrest]
      cases h.power with
      | missing => rfl
      | @given ds _ hread =>
          change (exponent? ds).map (fun power =>
            (⟨natOfDigits (whole ++ c :: cs), power - (c :: cs).length⟩ : Decimal)) = _
          rw [hread]
          rfl

/-- A sign in front of a number that is negative. -/
def signed (negative : Bool) (cs : List Char) : List Char := if negative then '-' :: cs else cs

theorem Parts.unsigned (h : Parts whole fraction exponent power) {c : Char} (hc : isDigit c = false)
    (rest cs : List Char) : whole ++ rest ≠ c :: cs := by
  intro heq
  cases whole with
  | nil => exact h.nonempty rfl
  | cons d ds =>
      have hd := h.wholeDigits d List.mem_cons_self
      rw [(List.cons.inj heq).1, hc] at hd
      cases hd

theorem ofChars?_parts (h : Parts whole fraction exponent power) (negative : Bool) :
    ofChars? (signed negative (whole ++ (point fraction ++ exponent))) =
      some ⟨negative, natOfDigits (whole ++ fraction), power - fraction.length⟩ := by
  have hread := magnitude?_parts h
  cases negative with
  | true =>
      change (magnitude? (whole ++ (point fraction ++ exponent))).map (fun m => (⟨true, m⟩ : Literal)) = _
      rw [hread]
      rfl
  | false =>
      rw [signed, ofChars?.eq_def]
      simp only [Bool.false_eq_true, ↓reduceIte]
      split
      · next heq => exact absurd heq (h.unsigned rfl _ _)
      · next heq => exact absurd heq (h.unsigned rfl _ _)
      · rw [hread]
        rfl

end Parts

end Literal

namespace Json

open Literal

variable {whole fraction exponent : List Char} {power : Int}

theorem isNumber_minus {cs : List Char} (h : ∀ rest, cs ≠ '-' :: rest) :
    isNumber ('-' :: cs) = isNumber cs := by
  rw [isNumber.eq_def cs]
  dsimp only
  split
  · next rest => exact absurd rfl (h rest)
  · rfl

theorem isNumber_parts (h : Parts whole fraction exponent power) (negative : Bool) :
    isNumber (signed negative (whole ++ (point fraction ++ exponent))) = true := by
  have hminus : isNumber ('-' :: (whole ++ (point fraction ++ exponent))) = true := by
    obtain ⟨htake, hdrop⟩ := takeWhile_isDigit h.wholeDigits (@point_head? fraction _ _ h.power)
    have hwhole : whole.isEmpty = false := List.isEmpty_eq_false_iff.mpr h.nonempty
    have hleading : (whole.head? == some '0' && whole.length ≠ 1) = false := by
      by_cases hzero : whole.head? = some '0'
      · rw [h.leading hzero]
        exact Bool.and_false _
      · rw [beq_false_of_ne hzero, Bool.false_and]
    rw [isNumber, htake, hdrop, hwhole, hleading, magnitude?_parts h]
    cases fraction with
    | nil =>
        cases h.power <;> rfl
    | cons c cs =>
        obtain ⟨hfraction, -⟩ := takeWhile_isDigit h.fractionDigits h.power.head?
        rw [point, if_neg (List.cons_ne_nil c cs), List.cons_append]
        simp only [hfraction]
        rfl
  cases negative with
  | true => exact hminus
  | false => exact (isNumber_minus (h.unsigned rfl _)).symm.trans hminus

theorem isNumberChar_of_isDigit {c : Char} (h : isDigit c = true) : isNumberChar c = true := by
  simp only [isNumberChar, h, Bool.true_or]

theorem isNumberChar_of_unsigned? {cs : List Char} {n : Nat} (h : exponent?.unsigned? cs = some n) :
    ∀ c ∈ cs, isNumberChar c = true := by
  rw [exponent?.unsigned?] at h
  split at h
  · cases h
  · next hdigits =>
      simp only [Bool.or_eq_true, Bool.not_eq_true', not_or, Bool.not_eq_false] at hdigits
      exact fun c hc => isNumberChar_of_isDigit (List.all_eq_true.mp hdigits.2 c hc)

theorem isNumberChar_of_power (h : Power exponent power) : ∀ c ∈ exponent, isNumberChar c = true := by
  cases h with
  | missing => exact fun _ hc => absurd hc List.not_mem_nil
  | @given cs _ hread =>
      have hrest : ∀ c ∈ cs, isNumberChar c = true := by
        rw [exponent?.eq_def] at hread
        split at hread
        · obtain ⟨i, hi, -⟩ := Option.map_eq_some_iff.mp hread
          obtain ⟨n, hn, -⟩ := Option.bind_eq_some_iff.mp hi
          exact List.forall_mem_cons.mpr ⟨rfl, isNumberChar_of_unsigned? hn⟩
        · obtain ⟨n, hn, -⟩ := Option.map_eq_some_iff.mp hread
          exact List.forall_mem_cons.mpr ⟨rfl, isNumberChar_of_unsigned? hn⟩
        · obtain ⟨n, hn, -⟩ := Option.map_eq_some_iff.mp hread
          exact isNumberChar_of_unsigned? hn
      exact List.forall_mem_cons.mpr ⟨rfl, hrest⟩

theorem isNumberChar_parts (h : Parts whole fraction exponent power) (negative : Bool) :
    ∀ c ∈ signed negative (whole ++ (point fraction ++ exponent)), isNumberChar c = true := by
  have hpoint : ∀ c ∈ point fraction, isNumberChar c = true := by
    rw [point]
    split
    · exact fun _ hc => absurd hc List.not_mem_nil
    · exact List.forall_mem_cons.mpr ⟨rfl, fun c hc => isNumberChar_of_isDigit (h.fractionDigits c hc)⟩
  have hbody : ∀ c ∈ whole ++ (point fraction ++ exponent), isNumberChar c = true := by
    intro c hc
    obtain hc | hc | hc := by simpa only [List.mem_append] using hc
    · exact isNumberChar_of_isDigit (h.wholeDigits c hc)
    · exact hpoint c hc
    · exact isNumberChar_of_power h.power c hc
  cases negative with
  | true => exact List.forall_mem_cons.mpr ⟨rfl, hbody⟩
  | false => exact hbody

theorem signed_ne_nil (h : Parts whole fraction exponent power) (negative : Bool) :
    signed negative (whole ++ (point fraction ++ exponent)) ≠ [] := by
  cases negative with
  | true => exact List.cons_ne_nil _ _
  | false => exact List.append_ne_nil_of_left_ne_nil h.nonempty _

theorem parts_natural (n : Nat) : Parts (toString n).toList [] [] 0 where
  wholeDigits _ hc := isDigit_of_mem_toString hc
  nonempty := toString_ne_nil n
  leading := head?_toString
  fractionDigits _ hc := absurd hc List.not_mem_nil
  power := .missing

/-- A natural number of a word is read as itself. -/
theorem numberText_natural {n : Nat} (h : n < wordSize) :
    NumberText (toString n).toList (.ofNatural n) := by
  have hparts := parts_natural n
  have htext : signed false ((toString n).toList ++ (point [] ++ [])) = (toString n).toList :=
    List.append_nil _
  refine ⟨toString_ne_nil n, htext ▸ isNumberChar_parts hparts false, ?_⟩
  have hdigits : (toString n).toList.all isDigit = true :=
    List.all_eq_true.mpr fun _ hc => isDigit_of_mem_toString hc
  rw [number?, if_pos (htext ▸ isNumber_parts hparts false), hdigits, natOfDigits_toString, if_pos]
  exact decide_eq_true h

/-- A number with a fraction or an exponent is read as the nearest real. -/
theorem numberText_real (h : Parts whole fraction exponent power) (hreal : fraction ≠ [] ∨ exponent ≠ [])
    {negative : Bool} {x : Float}
    (hvalue : (⟨negative, natOfDigits (whole ++ fraction), power - fraction.length⟩ : Literal).toFloat = x)
    (hfinite : x.isFinite = true) :
    NumberText (signed negative (whole ++ (point fraction ++ exponent))) (.ofReal x) := by
  refine ⟨signed_ne_nil h negative, isNumberChar_parts h negative, ?_⟩
  have hmark : (signed negative (whole ++ (point fraction ++ exponent))).all isDigit = false := by
    have hbody : (point fraction ++ exponent).all isDigit = false := by
      by_cases hfraction : fraction = []
      · have hexponent := hreal.resolve_left (not_not_intro hfraction)
        rw [hfraction]
        cases h.power with
        | missing => exact absurd rfl hexponent
        | given => rfl
      · rw [point, if_neg hfraction]
        rfl
    cases negative with
    | true => rfl
    | false => exact List.all_append.trans (by rw [hbody, Bool.and_false])
  rw [number?, if_pos (isNumber_parts h negative), hmark, Bool.false_and,
    if_neg Bool.false_ne_true, ofChars?_parts h negative, Option.map_some, hvalue, if_pos hfinite]

section Rendering

variable {d : Decimal}

/-- The text has the form of a number, with a fraction or an exponent, and stands for the decimal. -/
def Writes (text : List Char) (d : Decimal) : Prop :=
  ∃ whole fraction exponent power, text = whole ++ (point fraction ++ exponent) ∧
    Parts whole fraction exponent power ∧ (fraction ≠ [] ∨ exponent ≠ []) ∧
    (natOfDigits (whole ++ fraction) : ℚ) * 10 ^ (power - fraction.length) = d.digits * 10 ^ d.exponent

/-- The digits of a number other than zero do not begin with a zero. -/
theorem head?_toString_ne {n : Nat} (h : 0 < n) : (toString n).toList.head? ≠ some '0' := by
  intro hhead
  have hone := head?_toString hhead
  have hread := natOfDigits_toString n
  cases hdigits : (toString n).toList with
  | nil => exact toString_ne_nil n hdigits
  | cons c cs =>
      rw [hdigits] at hhead hone hread
      obtain rfl : c = '0' := Option.some.inj hhead
      obtain rfl : cs = [] := List.eq_nil_of_length_eq_zero (Nat.succ.inj hone)
      exact Nat.ne_of_gt h hread.symm

/-- The digits of a number other than zero. -/
structure DigitsOf (cs : List Char) (n : Nat) : Prop where
  value : natOfDigits cs = n
  nonempty : cs ≠ []
  digits : ∀ c ∈ cs, isDigit c = true
  head : cs.head? ≠ some '0'

theorem digitsOf_toString {n : Nat} (h : 0 < n) : DigitsOf (toString n).toList n :=
  ⟨natOfDigits_toString n, toString_ne_nil n, fun _ hc => isDigit_of_mem_toString hc, head?_toString_ne h⟩

variable {cs : List Char} {power : Int}

theorem digits_zero : ∀ c ∈ ['0'], isDigit c = true := List.forall_mem_singleton.mpr rfl

/-- Below one, zeros come between the point and the digits. -/
theorem writes_below (h : DigitsOf cs d.digits) {n : Nat} (hn : (n : Int) + cs.length = -d.exponent) :
    Writes (['0'] ++ (point (List.replicate n '0' ++ cs) ++ [])) d := by
  refine ⟨['0'], List.replicate n '0' ++ cs, [], 0, rfl,
    ⟨digits_zero, List.cons_ne_nil _ _, fun _ => rfl, ?_, .missing⟩,
    .inl (List.append_ne_nil_of_right_ne_nil _ h.nonempty), ?_⟩
  · intro c hc
    obtain hc | hc := List.mem_append.mp hc
    · rw [List.eq_of_mem_replicate hc]
      rfl
    · exact h.digits c hc
  · have hvalue : natOfDigits (['0'] ++ (List.replicate n '0' ++ cs)) = d.digits :=
      (natOfDigits_zeros_append 1 _).trans ((natOfDigits_zeros_append n cs).trans h.value)
    rw [hvalue, List.length_append, List.length_replicate]
    congr 2
    omega

/-- A whole number has zeros behind its digits, and one more behind the point. -/
theorem writes_whole (h : DigitsOf cs d.digits) {n : Nat} (hn : (n : Int) = d.exponent) :
    Writes ((cs ++ List.replicate n '0') ++ (point ['0'] ++ [])) d := by
  refine ⟨cs ++ List.replicate n '0', ['0'], [], 0, rfl,
    ⟨?_, List.append_ne_nil_of_left_ne_nil h.nonempty _, ?_, digits_zero, .missing⟩,
    .inl (List.cons_ne_nil _ _), ?_⟩
  · intro c hc
    obtain hc | hc := List.mem_append.mp hc
    · exact h.digits c hc
    · rw [List.eq_of_mem_replicate hc]
      rfl
  · intro hzero
    rw [List.head?_append_of_ne_nil _ h.nonempty] at hzero
    exact absurd hzero h.head
  · have hvalue : natOfDigits (cs ++ List.replicate n '0' ++ ['0']) = 10 ^ n * d.digits * 10 := by
      rw [natOfDigits_append, natOfDigits_append, natOfDigits_zeros, h.value, List.length_replicate]
      change 10 * (10 ^ n * d.digits + 0) + 0 = _
      omega
    have hpower : (10 : ℚ) ^ ((0 : Int) - (['0'] : List Char).length) = 10⁻¹ := by norm_num
    rw [hvalue, hpower, ← hn, zpow_natCast]
    push_cast
    ring

/-- Otherwise the digits are cut in two. -/
theorem writes_cut (h : DigitsOf cs d.digits) {n : Nat} (hpositive : 0 < n) (hn : n ≤ cs.length)
    {exponent : List Char} (hpower : Power exponent power) (hreal : cs.drop n ≠ [] ∨ exponent ≠ [])
    (hsum : power - ((cs.length - n : Nat) : Int) = d.exponent) :
    Writes (cs.take n ++ (point (cs.drop n) ++ exponent)) d := by
  have hwhole : cs.take n ≠ [] := fun hnil => by
    have hlength := congrArg List.length hnil
    rw [List.length_take, Nat.min_eq_left hn] at hlength
    exact Nat.ne_of_gt hpositive hlength
  refine ⟨cs.take n, cs.drop n, exponent, power, rfl,
    ⟨fun c hc => h.digits c (List.mem_of_mem_take hc), hwhole, ?_,
      fun c hc => h.digits c (List.mem_of_mem_drop hc), hpower⟩, hreal, ?_⟩
  · intro hzero
    have hhead := h.head
    rw [← List.take_append_drop n cs, List.head?_append_of_ne_nil _ hwhole] at hhead
    exact absurd hzero hhead
  · rw [List.take_append_drop, h.value, List.length_drop, hsum]

theorem writes_pointed {text : String} (h : DigitsOf text.toList d.digits)
    (hpower : power = text.toList.length + d.exponent) :
    Writes (numberStyle.pointed text power).toList d := by
  rw [DecimalStyle.pointed]
  split
  · next hsmall =>
      have hfraction : List.replicate (-power).toNat '0' ++ text.toList ≠ [] :=
        List.append_ne_nil_of_right_ne_nil _ h.nonempty
      have htext : ("0." ++ DecimalStyle.zeros (-power).toNat ++ text).toList =
          ['0'] ++ (point (List.replicate (-power).toNat '0' ++ text.toList) ++ []) := by
        simp only [point, if_neg hfraction, DecimalStyle.zeros, String.toList_append, String.toList_ofList,
          List.append_nil, List.append_assoc]
        rfl
      rw [htext]
      exact writes_below h (by omega)
  · next hlarge =>
      dsimp only
      rw [← String.length_toList]
      split
      · next hwhole =>
          have htext : (text ++ DecimalStyle.zeros (power.toNat - text.toList.length) ++
              numberStyle.wholeSuffix).toList =
              (text.toList ++ List.replicate (power.toNat - text.toList.length) '0') ++
                (point ['0'] ++ []) := by
            rw [DecimalStyle.zeros, String.toList_append, String.toList_append, String.toList_ofList]
            rfl
          rw [htext]
          exact writes_whole h (by omega)
      · next hpart =>
          have hfraction : text.toList.drop power.toNat ≠ [] := fun hnil => by
            have hlength := congrArg List.length hnil
            rw [List.length_drop, List.length_nil] at hlength
            omega
          have htext : (String.ofList (text.toList.take power.toNat) ++ "." ++
              String.ofList (text.toList.drop power.toNat)).toList =
              text.toList.take power.toNat ++ (point (text.toList.drop power.toNat) ++ []) := by
            simp only [point, if_neg hfraction, String.toList_append, String.toList_ofList, List.append_nil,
              List.append_assoc]
            rfl
          rw [htext]
          exact writes_cut h (by omega) (by omega) .missing (.inl hfraction) (by omega)

theorem power_scientific (power : Int) :
    Power ('e' :: ((if power < 0 then "-" else "+").toList ++ (toString power.natAbs).toList)) power := by
  have hdigits : exponent?.unsigned? (toString power.natAbs).toList = some power.natAbs := by
    have hnonempty : (toString power.natAbs).toList.isEmpty = false :=
      List.isEmpty_eq_false_iff.mpr (toString_ne_nil _)
    have hall : (toString power.natAbs).toList.all isDigit = true :=
      List.all_eq_true.mpr fun _ hc => isDigit_of_mem_toString hc
    rw [exponent?.unsigned?, hnonempty, hall, natOfDigits_toString]
    rfl
  refine .given ?_
  split
  · next hnegative =>
      change ((exponent?.unsigned? (toString power.natAbs).toList).bind fun n => some (n : Int)).map
        (fun n => -n) = _
      rw [hdigits]
      change some (-(power.natAbs : Int)) = some power
      congr 1
      omega
  · next hpositive =>
      change (exponent?.unsigned? (toString power.natAbs).toList).map Int.ofNat = _
      rw [hdigits]
      change some (power.natAbs : Int) = some power
      congr 1
      omega

theorem writes_scientific {text : String} (h : DigitsOf text.toList d.digits)
    (hpower : power = text.toList.length + d.exponent - 1) :
    Writes (numberStyle.scientific text power).toList d := by
  have hlength : 0 < text.toList.length := List.length_pos_iff.mpr h.nonempty
  have htext : (numberStyle.scientific text power).toList =
      text.toList.take 1 ++ (point (text.toList.drop 1) ++
        'e' :: ((if power < 0 then "-" else "+").toList ++ (toString power.natAbs).toList)) := by
    have hfraction : (if (String.ofList (text.toList.drop 1)).isEmpty then "" else
        "." ++ String.ofList (text.toList.drop 1)).toList = point (text.toList.drop 1) := by
      cases text.toList.drop 1 with
      | nil => rfl
      | cons c cs =>
          have hsome : ¬ (String.ofList (c :: cs)).isEmpty = true := fun hempty => by
            have hnil := congrArg String.toList (String.isEmpty_iff.mp hempty)
            rw [String.toList_ofList] at hnil
            cases hnil
          rw [if_neg hsome, String.toList_append, String.toList_ofList, String.toList_ofList]
          rfl
    rw [DecimalStyle.scientific]
    simp only [String.toList_append, hfraction, String.toList_ofList, List.append_assoc]
    rfl
  rw [htext]
  exact writes_cut h Nat.one_pos hlength (power_scientific power) (.inr (List.cons_ne_nil _ _)) (by omega)

theorem writes_renderDecimal (h : 0 < d.digits) : Writes (numberStyle.renderDecimal d).toList d := by
  have hcs := digitsOf_toString h
  rw [DecimalStyle.renderDecimal, ← String.length_toList]
  split
  · exact writes_pointed hcs rfl
  · exact writes_scientific hcs rfl

theorem toList_sign (negative : Bool) (text : String) :
    (DecimalStyle.sign negative ++ text).toList = signed negative text.toList := by
  cases negative <;> rw [String.toList_append] <;> rfl

/-- A finite number is read back from its text. -/
theorem numberText_render {x : Float} (h : x.isFinite = true) :
    NumberText (numberStyle.render x).toList (.ofReal x) := by
  have hnumber := (BinaryValue.isFinite_ofFloat x).trans h
  rw [DecimalStyle.render]
  cases hvalue : BinaryValue.ofFloat x with
  | nan =>
      rw [hvalue] at hnumber
      cases hnumber
  | infinite negative =>
      rw [hvalue] at hnumber
      cases hnumber
  | zero negative =>
      have hparts : Parts ['0'] ['0'] [] 0 :=
        ⟨digits_zero, List.cons_ne_nil _ _, fun _ => rfl, digits_zero, .missing⟩
      have hzero : (⟨negative, natOfDigits ['0', '0'], 0 - 1⟩ : Literal).toFloat = x := by
        rw [BinaryValue.eq_zero hvalue]
        cases negative <;> rfl
      have htext : (DecimalStyle.sign negative ++ "0" ++ numberStyle.wholeSuffix).toList =
          signed negative (['0'] ++ (point ['0'] ++ [])) := by
        cases negative <;> rfl
      dsimp only
      rw [htext]
      exact numberText_real hparts (.inl (List.cons_ne_nil _ _)) hzero h
  | finite negative b =>
      have hb := (hvalue ▸ BinaryValue.standsFor x).canonical
      obtain ⟨hrounds, hdigits⟩ := Decimal.shortest_rounds hb
      obtain ⟨whole, fraction, exponent, power, htext, hparts, hreal, hsame⟩ := writes_renderDecimal hdigits
      dsimp only
      rw [toList_sign, htext]
      refine numberText_real hparts hreal ?_ h
      rw [BinaryValue.eq_packed hvalue hb]
      refine Literal.toFloat_eq hb (Nat.pos_of_ne_zero fun hzero => ?_) (hsame ▸ hrounds)
      have hpositive : (0 : ℚ) < (Decimal.shortest b).digits * 10 ^ (Decimal.shortest b).exponent :=
        mul_pos (by exact_mod_cast hdigits) (by positivity)
      dsimp only at hzero
      rw [← hsame, hzero, Nat.cast_zero, zero_mul] at hpositive
      exact lt_irrefl _ hpositive

end Rendering

/-- What is no number is written as null. -/
theorem render_of_not_finite {x : Float} (h : ¬ x.isFinite = true) : numberStyle.render x = "null" := by
  rw [← BinaryValue.isFinite_ofFloat] at h
  rw [DecimalStyle.render]
  cases hvalue : BinaryValue.ofFloat x with
  | nan => rfl
  | infinite negative => cases negative <;> rfl
  | zero negative =>
      rw [hvalue] at h
      exact absurd rfl h
  | finite negative b =>
      rw [hvalue] at h
      exact absurd rfl h

end Json

end BlockDiagram
