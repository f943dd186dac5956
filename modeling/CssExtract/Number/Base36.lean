namespace CssExtract.Base36

def digit (n : Nat) : Char := if n < 10 then Char.ofNat (48 + n) else Char.ofNat (87 + n)

def isDigit (c : Char) : Bool := c.isDigit || c.isLower

def digitValue (c : Char) : Nat := if c.toNat < 97 then c.toNat - 48 else c.toNat - 87

def write (n : Nat) : List Char :=
  if n < 36 then [digit n] else write (n / 36) ++ [digit (n % 36)]

def readOn (n : Nat) (s : List Char) : Nat := s.foldl (fun n c => 36 * n + digitValue c) n

def read (s : List Char) : Nat := readOn 0 s

/-- A text of digits that has no zero in front, unless that is all of it. -/
structure IsNumeral (s : List Char) : Prop where
  ne_nil : s ≠ []
  digits : ∀ c ∈ s, isDigit c = true
  leading : s.head? = some '0' → s = ['0']

theorem isDigit_digit {n : Nat} (h : n < 36) : isDigit (digit n) = true := by
  have : ∀ m : Fin 36, isDigit (digit m) = true := by decide
  exact this ⟨n, h⟩

theorem digitValue_digit {n : Nat} (h : n < 36) : digitValue (digit n) = n := by
  have : ∀ m : Fin 36, digitValue (digit m) = m := by decide
  exact this ⟨n, h⟩

theorem isDigit_iff {c : Char} :
    isDigit c = true ↔ 48 ≤ c.toNat ∧ c.toNat ≤ 57 ∨ 97 ≤ c.toNat ∧ c.toNat ≤ 122 := by
  have hdigit : c.isDigit = (decide (48 ≤ c.toNat) && decide (c.toNat ≤ 57)) := rfl
  have hlower : c.isLower = (decide (97 ≤ c.toNat) && decide (c.toNat ≤ 122)) := rfl
  rw [isDigit, hdigit, hlower, Bool.or_eq_true, Bool.and_eq_true, Bool.and_eq_true]
  simp only [decide_eq_true_eq]

theorem digitValue_lt {c : Char} (h : isDigit c = true) : digitValue c < 36 := by
  have hrange := isDigit_iff.1 h
  rw [digitValue]
  split <;> omega

theorem digit_digitValue {c : Char} (h : isDigit c = true) : digit (digitValue c) = c := by
  have hrange := isDigit_iff.1 h
  have hcode : digit (digitValue c) = Char.ofNat c.toNat := by
    by_cases hc : c.toNat < 97
    · rw [digitValue, if_pos hc, digit, if_pos (by omega), Nat.add_sub_cancel' (by omega)]
    · rw [digitValue, if_neg hc, digit, if_neg (by omega), Nat.add_sub_cancel' (by omega)]
  rw [hcode, Char.ofNat_toNat]

theorem digitValue_pos {c : Char} (h : isDigit c = true) (hc : c ≠ '0') : 0 < digitValue c := by
  refine Nat.pos_of_ne_zero fun hzero => hc ?_
  rw [← digit_digitValue h, hzero]
  rfl

theorem isDigit_of_mem_write {n : Nat} {c : Char} (h : c ∈ write n) : isDigit c = true := by
  fun_induction write n with
  | case1 n hn =>
    obtain rfl := List.mem_singleton.1 h
    exact isDigit_digit hn
  | case2 n hn ih =>
    rcases List.mem_append.1 h with h | h
    · exact ih h
    · obtain rfl := List.mem_singleton.1 h
      exact isDigit_digit (Nat.mod_lt _ (by decide))

theorem exists_leading (n : Nat) : ∃ c t, write n = c :: t ∧ (c = '0' → n = 0) := by
  fun_induction write n with
  | case1 n hn =>
    refine ⟨digit n, [], rfl, fun hzero => ?_⟩
    have hvalue := digitValue_digit hn
    rw [hzero] at hvalue
    exact hvalue.symm
  | case2 n hn ih =>
    obtain ⟨c, t, hwrite, hzero⟩ := ih
    refine ⟨c, t ++ [digit (n % 36)], by rw [hwrite, List.cons_append], fun hc => ?_⟩
    have hquotient := hzero hc
    omega

theorem isNumeral_write (n : Nat) : IsNumeral (write n) := by
  obtain ⟨c, t, hwrite, hzero⟩ := exists_leading n
  refine ⟨by simp [hwrite], fun c => isDigit_of_mem_write, fun hhead => ?_⟩
  rw [hwrite] at hhead
  rw [hzero (Option.some.inj hhead), write]
  rfl

theorem read_append (s : List Char) (c : Char) : read (s ++ [c]) = 36 * read s + digitValue c := by
  simp [read, readOn]

theorem read_write (n : Nat) : read (write n) = n := by
  fun_induction write n with
  | case1 n h => simpa [read, readOn] using digitValue_digit h
  | case2 n h ih =>
    rw [read_append, ih, digitValue_digit (Nat.mod_lt _ (by decide))]
    omega

theorem write_digitValue {c : Char} (h : isDigit c = true) : write (digitValue c) = [c] := by
  rw [write, if_pos (digitValue_lt h), digit_digitValue h]

theorem write_add_digitValue {n : Nat} {c : Char} (hn : 0 < n) (hc : isDigit c = true) :
    write (36 * n + digitValue c) = write n ++ [c] := by
  have hlt := digitValue_lt hc
  have hquotient : (36 * n + digitValue c) / 36 = n := by omega
  have hremainder : (36 * n + digitValue c) % 36 = digitValue c := by omega
  rw [write, if_neg (by omega), hquotient, hremainder, digit_digitValue hc]

theorem write_readOn {n : Nat} {s : List Char} (hn : 0 < n) (hs : ∀ c ∈ s, isDigit c = true) :
    write (readOn n s) = write n ++ s := by
  -- the digits read so far stand for a number above zero, so none of them is lost
  induction s generalizing n with
  | nil => exact (List.append_nil _).symm
  | cons c s ih =>
    have hc := hs c (List.mem_cons_self ..)
    have hpos : 0 < 36 * n + digitValue c := by omega
    calc write (readOn n (c :: s))
      _ = write (36 * n + digitValue c) ++ s := ih hpos fun x hx => hs x (List.mem_cons_of_mem c hx)
      _ = write n ++ c :: s := by rw [write_add_digitValue hn hc, List.append_assoc, List.singleton_append]

theorem write_read {s : List Char} (h : IsNumeral s) : write (read s) = s := by
  obtain ⟨c, t, rfl⟩ := List.exists_cons_of_ne_nil h.ne_nil
  have hc := h.digits c (List.mem_cons_self ..)
  have hfirst : read (c :: t) = readOn (digitValue c) t := by simp [read, readOn]
  by_cases hzero : c = '0'
  · obtain rfl : t = [] := by simpa [hzero] using h.leading
    rw [hfirst]
    exact write_digitValue hc
  · have ht : ∀ x ∈ t, isDigit x = true := fun x hx => h.digits x (List.mem_cons_of_mem c hx)
    rw [hfirst, write_readOn (digitValue_pos hc hzero) ht, write_digitValue hc, List.singleton_append]

end CssExtract.Base36
