import Mathlib.Data.List.Basic
import Workflow.Json.Printer
import Workflow.Json.Reader

/-!
# Strings and whole numbers read back from their text

A string is decoded from its encoding up to the closing quote, whatever its characters. A whole
number of 64 bits is read from its digits if the text behind them does not go on with a number.
-/

namespace Workflow.Json

set_option autoImplicit false

namespace Quoted

/-- The number of a control character is read from its two last digits. -/
theorem unit?_control : ∀ n < 32,
    unit? '0' '0' (Nat.digitChar (n / 16)) (Nat.digitChar (n % 16)) = some n := by
  decide

theorem decode_control {c : Char} (h : c < ' ') (rest : List Char) :
    decode ('\\' :: 'u' :: '0' :: '0' :: Nat.digitChar (c.toNat / 16) ::
      Nat.digitChar (c.toNat % 16) :: rest) = (decode rest).map fun p => (c :: p.1, p.2) := by
  have hc : c.toNat < 32 := h
  have hlead : isLead c.toNat = false := by
    simp [isLead]
    omega
  have htrail : isTrail c.toNat = false := by
    simp [isTrail]
    omega
  simp only [decode, unit?_control c.toNat hc, hlead, htrail, Char.ofNat_toNat]
  rfl

theorem decode_plain {c : Char} (hquote : c ≠ '"') (hslash : c ≠ '\\') (h : ¬ c < ' ')
    (rest : List Char) : decode (c :: rest) = (decode rest).map fun p => (c :: p.1, p.2) := by
  have hstep : decode (c :: rest) =
      if c < ' ' then .error (.bareControl c) else (decode rest).map fun p => (c :: p.1, p.2) := by
    rw [decode.eq_def]
    split <;> simp_all
    rfl
  rw [hstep, if_neg h]

/-- Whatever escape a character is written with, it is decoded as the character. -/
theorem decode_encodeChar (c : Char) (rest : List Char) :
    decode (encodeChar c ++ rest) = (decode rest).map fun p => (c :: p.1, p.2) := by
  unfold encodeChar
  split
  · rfl
  · rfl
  · rfl
  · rfl
  · rfl
  · rfl
  · rfl
  · rename_i hquote hslash _ _ _ _ _
    split
    · rename_i h
      exact decode_control h rest
    · rename_i h
      exact decode_plain hquote hslash h rest

/-- A string that was encoded and closed is decoded as itself, up to its closing quote. -/
theorem decode_encode (cs rest : List Char) :
    decode (encode cs ++ '"' :: rest) = .ok (cs, rest) := by
  induction cs with
  | nil => rfl
  | cons c cs ih =>
    rw [encode, List.flatMap_cons, List.append_assoc, decode_encodeChar, ← encode, ih]
    rfl

end Quoted

/-- The text does not go on with a number. -/
def Stops (rest : List Char) : Prop :=
  ∀ c ∈ rest.head?, c.isDigit = false ∧ c ≠ '.' ∧ c ≠ 'e' ∧ c ≠ 'E'

theorem stops_nil : Stops [] := nofun

theorem stops_cons {c : Char} (h : c = ',' ∨ c = ']' ∨ c = '}') (rest : List Char) :
    Stops (c :: rest) := by
  intro d hd
  obtain rfl : c = d := by simpa using hd
  rcases h with rfl | rfl | rfl <;> decide

theorem isDigit_of_mem_toDigits (n : Nat) : ∀ c ∈ Nat.toDigits 10 n, c.isDigit = true :=
  fun _ hc => Nat.isDigit_of_mem_toDigits (by decide) (by decide) hc

theorem toDigits_eq_cons (n : Nat) : ∃ d ds, Nat.toDigits 10 n = d :: ds ∧ d.isDigit = true := by
  have hdigit := isDigit_of_mem_toDigits n
  cases hds : Nat.toDigits 10 n with
  | nil => exact absurd hds Nat.toDigits_ne_nil
  | cons d ds => exact ⟨d, ds, rfl, hdigit d (by rw [hds]; exact List.mem_cons_self)⟩

/-- Only zero itself is written with a zero in front. -/
theorem head?_toDigits_ne_zero {n : Nat} (h : 0 < n) : (Nat.toDigits 10 n).head? ≠ some '0' := by
  induction n using Nat.strongRecOn with
  | ind n ih =>
    by_cases hn : n < 10
    · rw [Nat.toDigits_of_lt_base hn]
      simpa using Nat.ne_of_gt h
    · rw [Nat.toDigits_of_base_le (by decide) (by omega),
        List.head?_append_of_ne_nil _ Nat.toDigits_ne_nil]
      exact ih (n / 10) (by omega) (by omega)

theorem readDigits_append {ds rest : List Char} (hne : ds ≠ [])
    (hds : ∀ c ∈ ds, c.isDigit = true) (h : Stops rest) :
    readDigits (ds ++ rest) = .ok (ds, rest) := by
  have hstop : rest.takeWhile Char.isDigit = [] ∧ rest.dropWhile Char.isDigit = rest := by
    cases rest with
    | nil => exact ⟨rfl, rfl⟩
    | cons c rest =>
      have hc : c.isDigit = false := (h c rfl).1
      simp [hc]
  unfold readDigits
  rw [List.takeWhile_append_of_pos hds, List.dropWhile_append_of_pos hds, hstop.1, hstop.2,
    List.append_nil]
  cases ds with
  | nil => exact absurd rfl hne
  | cons d ds => rfl

theorem readWhole_toDigits (n : Nat) {rest : List Char} (h : Stops rest) :
    readWhole (Nat.toDigits 10 n ++ rest) = .ok (Nat.toDigits 10 n, rest) := by
  unfold readWhole
  rw [readDigits_append Nat.toDigits_ne_nil (isDigit_of_mem_toDigits n) h]
  dsimp only [bind, Except.bind]
  split
  · rename_i ds hds
    rcases Nat.eq_zero_or_pos n with rfl | hn
    · simp at hds
    · exact absurd (by rw [hds]; rfl) (head?_toDigits_ne_zero hn)
  · rfl

theorem readFraction_of_stops {rest : List Char} (h : Stops rest) :
    readFraction rest = .ok (none, rest) := by
  unfold readFraction
  split
  · exact absurd rfl (h '.' rfl).2.1
  · rfl

theorem readExponent_of_stops {rest : List Char} (h : Stops rest) :
    readExponent rest = .ok (none, rest) := by
  cases rest with
  | nil => rfl
  | cons c rest =>
    obtain ⟨-, -, he, hE⟩ := h c rfl
    rw [readExponent, if_neg (by simp [he, hE])]

theorem ofLiteral_toDigits {m : Nat} (h : m < Nat.pow 2 64) :
    ofLiteral ⟨false, Nat.toDigits 10 m, none, none⟩ = .ok (.int m) := by
  simp only [ofLiteral, Decimal.Literal.toInt?, Nat.ofDigitChars_ten_toDigits, if_pos h,
    Bool.false_eq_true, if_false]

theorem ofLiteral_neg_toDigits {m : Nat} (h : 0 < m ∧ m ≤ Nat.pow 2 63) :
    ofLiteral ⟨true, Nat.toDigits 10 m, none, none⟩ = .ok (.int (-m)) := by
  simp only [ofLiteral, Decimal.Literal.toInt?, Nat.ofDigitChars_ten_toDigits, if_pos h, if_true]

section Number
variable {m : Nat} {v : Json} {rest : List Char}

theorem readNumber_toDigits (h : Stops rest)
    (hv : ofLiteral ⟨false, Nat.toDigits 10 m, none, none⟩ = .ok v) :
    readNumber (Nat.toDigits 10 m ++ rest) = .ok (v, rest) := by
  obtain ⟨d, ds, hds, hd⟩ := toDigits_eq_cons m
  unfold readNumber
  split
  rename_i negative cs hmatch
  split at hmatch
  · rename_i heq
    rw [hds] at heq
    cases heq
    cases hd
  · cases hmatch
    simp only [readWhole_toDigits m h, readFraction_of_stops h, readExponent_of_stops h, hv, bind,
      Except.bind]

theorem readNumber_neg_toDigits (h : Stops rest)
    (hv : ofLiteral ⟨true, Nat.toDigits 10 m, none, none⟩ = .ok v) :
    readNumber ('-' :: (Nat.toDigits 10 m ++ rest)) = .ok (v, rest) := by
  unfold readNumber
  split
  rename_i negative cs hmatch
  cases hmatch
  simp only [readWhole_toDigits m h, readFraction_of_stops h, readExponent_of_stops h,
    hv, bind, Except.bind]

end Number

/-- A whole number of 64 bits is read from its digits and its sign. -/
theorem readNumber_wholeChars {n : Int} (low : -Int.pow 2 63 ≤ n) (high : n < Int.pow 2 64)
    {rest : List Char} (h : Stops rest) :
    readNumber (wholeChars n ++ rest) = .ok (.int n, rest) := by
  have hpow63 : Int.pow 2 63 = (Nat.pow 2 63 : Nat) := rfl
  have hpow64 : Int.pow 2 64 = (Nat.pow 2 64 : Nat) := rfl
  rw [wholeChars]
  split
  · rename_i hneg
    have hrange : 0 < n.natAbs ∧ n.natAbs ≤ Nat.pow 2 63 := by omega
    have hn : -(n.natAbs : Int) = n := by omega
    have hv := ofLiteral_neg_toDigits hrange
    rw [hn] at hv
    exact readNumber_neg_toDigits h hv
  · have hrange : n.natAbs < Nat.pow 2 64 := by omega
    have hn : (n.natAbs : Int) = n := by omega
    have hv := ofLiteral_toDigits hrange
    rw [hn] at hv
    exact readNumber_toDigits h hv

/-- A character with which the text of a number starts. -/
def StartsNumber (c : Char) : Prop := c = '-' ∨ c.isDigit = true

instance (c : Char) : Decidable (StartsNumber c) :=
  inferInstanceAs (Decidable (c = '-' ∨ c.isDigit = true))

theorem StartsNumber.ne {c e : Char} (h : StartsNumber c) (he : ¬ StartsNumber e) : c ≠ e :=
  fun heq => he (heq ▸ h)

theorem StartsNumber.not_blank {c : Char} (h : StartsNumber c) : isBlank c = false := by
  rw [← Bool.not_eq_true]
  intro hblank
  simp only [isBlank, Bool.or_eq_true, decide_eq_true_eq] at hblank
  rcases hblank with ((rfl | rfl) | rfl) | rfl <;> exact absurd h (by decide)

theorem wholeChars_head (n : Int) : ∃ c cs, wholeChars n = c :: cs ∧ StartsNumber c := by
  rw [wholeChars]
  split
  · exact ⟨_, _, rfl, .inl rfl⟩
  · obtain ⟨d, ds, hds, hd⟩ := toDigits_eq_cons n.natAbs
    exact ⟨d, ds, hds, .inr hd⟩

theorem readScalar_number {c : Char} (h : StartsNumber c) (cs : List Char) :
    readScalar (c :: cs) = readNumber (c :: cs) := by
  rcases h with rfl | h
  · rfl
  · rw [readScalar.eq_def]
    split
    case h_6 heq =>
      cases heq
      rw [if_pos h]
    all_goals
      rename_i heq
      cases heq <;> cases h

end Workflow.Json
