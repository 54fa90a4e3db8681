import ProjectFile.Text.Basic
import ProjectFile.Text.Digits

/-!
Numbers that are written in digits are read back.

The digits of a number are read as the number (`digitsFrom?_toDigits`). Zeros in front of them do not
count (`digitsFrom?_replicate_append`), and neither does the case of letters (`digitsFrom?_fold`).
-/

namespace ProjectFile.Text

variable {radix : Nat}

/-! ## Single digits -/

theorem digit?_digitChar (hradix : radix ≤ 16) {d : Nat} (hd : d < radix) :
    digit? radix d.digitChar = some d := by
  have hall : ∀ radix < 17, ∀ d < radix, digit? radix d.digitChar = some d := by decide
  exact hall radix (by omega) d hd

theorem toNat_toLower {c : Char} (hlow : 65 ≤ c.toNat) (hhigh : c.toNat ≤ 90) :
    c.toLower.toNat = c.toNat + 32 := by
  have hupper : c.val ≥ 'A'.val ∧ c.val ≤ 'Z'.val := ⟨hlow, hhigh⟩
  have hsum : c.val.toNat + ('a'.val - 'A'.val).toNat < 2 ^ 32 := by
    have hoffset : ('a'.val - 'A'.val).toNat = 32 := by decide
    have hcode : c.val.toNat ≤ 90 := hhigh
    omega
  have hlower : c.toLower.val = c.val + ('a'.val - 'A'.val) := congrArg Char.val (dif_pos hupper)
  show c.toLower.val.toNat = c.toNat + 32
  rw [hlower]
  exact (UInt32.toNat_add _ _).trans (Nat.mod_eq_of_lt hsum)

theorem digit?_toLower (c : Char) : digit? radix c.toLower = digit? radix c := by
  have hle : ∀ c d : Char, c ≤ d ↔ c.toNat ≤ d.toNat := fun c d => by
    rw [Char.le_def, UInt32.le_iff_toNat_le]
    rfl
  by_cases hupper : 65 ≤ c.toNat ∧ c.toNat ≤ 90
  · unfold digit?
    simp only [hle, toNat_toLower hupper.1 hupper.2, Char.reduceToNat]
    grind
  · have hsame : c.toLower = c := dif_neg hupper
    rw [hsame]

/-! ## Numbers -/

theorem digitsFrom?_append (value : Nat) (s t : Text) :
    digitsFrom? radix value (s ++ t) =
      (digitsFrom? radix value s).bind fun value => digitsFrom? radix value t := by
  induction s generalizing value with
  | nil => rfl
  | cons c s ih =>
    rw [List.cons_append, digitsFrom?, digitsFrom?]
    cases digit? radix c with
    | none => rfl
    | some d => exact ih _

theorem digitsFrom?_fold (value : Nat) (t : Text) :
    digitsFrom? radix value (fold t) = digitsFrom? radix value t := by
  induction t generalizing value with
  | nil => rfl
  | cons c t ih =>
    rw [show fold (c :: t) = c.toLower :: fold t from rfl, digitsFrom?, digitsFrom?, digit?_toLower]
    exact congrArg _ (funext fun d => ih _)

theorem digitsFrom?_toDigits (hradix : 1 < radix) (hmax : radix ≤ 16) (n : Nat) :
    digitsFrom? radix 0 (Nat.toDigits radix n) = some n := by
  induction n using Nat.strongRecOn with
  | ind n ih =>
    rw [Nat.toDigits_eq_if hradix]
    split
    · next hlt => rw [digitsFrom?, digit?_digitChar hmax hlt, Option.bind_some, digitsFrom?]; simp
    · next hge =>
      have hquotient : n / radix < n := Nat.div_lt_self (by omega) hradix
      have hlast : digit? radix (n % radix).digitChar = some (n % radix) :=
        digit?_digitChar hmax (Nat.mod_lt _ (by omega))
      rw [digitsFrom?_append, ih _ hquotient, Option.bind_some, digitsFrom?, hlast, Option.bind_some,
        digitsFrom?, Nat.mul_comm, Nat.div_add_mod]

/-- Zeros in front do not count. -/
theorem digitsFrom?_replicate_append (hpos : 0 < radix) (hmax : radix ≤ 16) (zeros : Nat) (t : Text) :
    digitsFrom? radix 0 (List.replicate zeros '0' ++ t) = digitsFrom? radix 0 t := by
  induction zeros with
  | zero => rfl
  | succ zeros ih =>
    have hzero : digit? radix '0' = some 0 := digit?_digitChar hmax hpos
    rw [List.replicate_succ, List.cons_append, digitsFrom?, hzero, Option.bind_some, Nat.zero_mul,
      Nat.zero_add, ih]

theorem isSome_digit?_of_digitsFrom? {value n : Nat} {t : Text} (h : digitsFrom? radix value t = some n) :
    ∀ c ∈ t, (digit? radix c).isSome = true := by
  induction t generalizing value with
  | nil => simp
  | cons c t ih =>
    rw [digitsFrom?] at h
    obtain ⟨d, hd, ht⟩ := Option.bind_eq_some_iff.1 h
    rw [List.forall_mem_cons, hd]
    exact ⟨rfl, ih ht⟩

/-- A number without a sign is read as the number that its digits are. -/
theorem natural?_of_digitsFrom? (hmax : radix ≤ 16) {n : Nat} {t : Text} (hne : t ≠ [])
    (h : digitsFrom? radix 0 t = some n) : natural? radix t = some n := by
  have hdigits : digits? radix t = some n := by
    rw [digits?, if_neg (by simpa using hne), h]
  have hplus : digit? radix '+' = none := by
    have hall : ∀ radix < 17, digit? radix '+' = none := by decide
    exact hall radix (by omega)
  cases t with
  | nil => exact absurd rfl hne
  | cons c t =>
    have hc : c ≠ '+' := by
      rintro rfl
      have hsome := isSome_digit?_of_digitsFrom? h '+' List.mem_cons_self
      rw [hplus] at hsome
      cases hsome
    unfold natural?
    split
    · next heq => exact absurd (List.cons.inj heq).1 hc
    · exact hdigits

end ProjectFile.Text
