/-!
# Decimal digits

Natural numbers and integers in decimal, plain and filled up with zeros to a
fixed width. Every character written is a decimal digit, apart from the sign.
-/

namespace LogPipeline.Decimal

def isDigit (c : Char) : Bool := 48 ≤ c.toNat && c.toNat ≤ 57

/-- The character of a number below ten. -/
def digit (d : Nat) : Char := Char.ofNat (48 + d % 10)

def digitValue (c : Char) : Nat := c.toNat - 48

/-- The digits of a number, most significant first, without leading zeros. -/
def digits (n : Nat) : List Char :=
  if n < 10 then [digit n] else digits (n / 10) ++ [digit n]
decreasing_by omega

/-- The digits of a number, with zeros in front up to a width. -/
def padded (width n : Nat) : List Char :=
  List.replicate (width - (digits n).length) '0' ++ digits n

def natText (n : Nat) : String := String.ofList (digits n)

def intText (i : Int) : String :=
  if i < 0 then String.ofList ('-' :: digits i.natAbs) else natText i.natAbs

def value (cs : List Char) : Nat := cs.foldl (fun n c => 10 * n + digitValue c) 0

theorem isDigit_digit (d : Nat) : isDigit (digit d) = true := by
  have h : ∀ k < 10, isDigit (Char.ofNat (48 + k)) = true := by decide
  exact h _ (Nat.mod_lt _ (by omega))

theorem digitValue_digit (d : Nat) : digitValue (digit d) = d % 10 := by
  have h : ∀ k < 10, digitValue (Char.ofNat (48 + k)) = k := by decide
  exact h _ (Nat.mod_lt _ (by omega))

theorem isDigit_of_mem_digits {n : Nat} {c : Char} (h : c ∈ digits n) : isDigit c = true := by
  induction n using digits.induct with
  | case1 n hn => rw [digits, if_pos hn] at h; simp_all [isDigit_digit]
  | case2 n hn ih =>
    rw [digits, if_neg hn] at h
    rcases List.mem_append.1 h with h | h
    · exact ih h
    · simp_all [isDigit_digit]

theorem value_append_digit (cs : List Char) (d : Nat) :
    value (cs ++ [digit d]) = 10 * value cs + d % 10 := by
  simp [value, List.foldl_append, digitValue_digit]

/-- Reading the digits of a number gives the number. -/
theorem value_digits (n : Nat) : value (digits n) = n := by
  induction n using digits.induct with
  | case1 n hn => rw [digits, if_pos hn]; simp [value, digitValue_digit]; omega
  | case2 n hn ih => rw [digits, if_neg hn, value_append_digit, ih]; omega

theorem digits_ne_nil (n : Nat) : digits n ≠ [] := by
  rw [digits]; split <;> simp

/-- The digits of a number begin with a digit. -/
theorem digits_eq_cons (n : Nat) : ∃ c cs, digits n = c :: cs ∧ isDigit c = true := by
  cases h : digits n with
  | nil => exact absurd h (digits_ne_nil n)
  | cons c cs => exact ⟨c, cs, rfl, isDigit_of_mem_digits (h ▸ List.mem_cons_self)⟩

/-- Only the digits of zero begin with a zero. -/
theorem eq_zero_of_digits {n : Nat} {cs : List Char} (h : digits n = '0' :: cs) : n = 0 := by
  induction n using digits.induct generalizing cs with
  | case1 n hn =>
    rw [digits, if_pos hn] at h
    have hzero : digitValue (digit n) = 0 := by rw [(List.cons.inj h).1]; rfl
    rw [digitValue_digit] at hzero
    omega
  | case2 n hn ih =>
    obtain ⟨c, ds, hc, -⟩ := digits_eq_cons (n / 10)
    rw [digits, if_neg hn, hc, List.cons_append] at h
    have := ih (hc.trans (congrArg (· :: ds) (List.cons.inj h).1))
    omega

theorem digits_zero : digits 0 = ['0'] := by
  rw [digits, if_pos (by omega)]
  rfl

theorem isDigit_of_mem_padded {w n : Nat} {c : Char} (h : c ∈ padded w n) : isDigit c = true := by
  rcases List.mem_append.1 h with h | h
  · rw [List.eq_of_mem_replicate h]; decide
  · exact isDigit_of_mem_digits h

/-- Zeros in front do not change the number. -/
theorem value_padded (w n : Nat) : value (padded w n) = n := by
  have hzeros : ∀ k, value (List.replicate k '0' ++ digits n) = value (digits n) := by
    intro k
    induction k with
    | zero => rfl
    | succ k ih => exact ih
  rw [padded, hzeros, value_digits]

/-- A padded number has at least its width. -/
theorem le_length_padded (w n : Nat) : w ≤ (padded w n).length := by
  simp only [padded, List.length_append, List.length_replicate]; omega

theorem length_digits_le {w n : Nat} (hw : 0 < w) (h : n < Nat.pow 10 w) :
    (digits n).length ≤ w := by
  induction w generalizing n with
  | zero => cases hw
  | succ w ih =>
    rw [digits]
    split
    · exact hw
    · next hn =>
      have hpos : 0 < w := by
        refine Nat.pos_of_ne_zero fun hzero => hn ?_
        rw [hzero] at h
        exact h
      have hpow : Nat.pow 10 (w + 1) = Nat.pow 10 w * 10 := rfl
      have hrest : (digits (n / 10)).length ≤ w := ih hpos (by omega)
      simp only [List.length_append, List.length_singleton]
      omega

/-- A number that fits into a width is padded to just that width. -/
theorem length_padded {w n : Nat} (hw : 0 < w) (h : n < Nat.pow 10 w) :
    (padded w n).length = w := by
  have := length_digits_le hw h
  simp only [padded, List.length_append, List.length_replicate]
  omega

/-- A number below a hundred is padded to just two digits. -/
theorem length_padded_two {n : Nat} (h : n < 100) : (padded 2 n).length = 2 :=
  length_padded Nat.two_pos h

end LogPipeline.Decimal
