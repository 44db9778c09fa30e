import AndrenBoost.Lib.Bytes
import Mathlib.Data.List.Induction
import Mathlib.Data.List.TakeWhile
import Mathlib.Tactic.IntervalCases

/-!
# The string operations of the C++ standard library

Positions are counted from the front of the string.  `npos` is `none`, and an
exception is an `Except.error`.

## Main definitions

* `find s c pos`, `substr s pos n` — `std::string::find` of a character and
  `std::string::substr`.
* `range s first last` — the bytes between two iterators.
* `cString s` — what a function that takes `s.c_str()` sees.
* `toDecimal n` — `std::to_string` of an unsigned number.
* `stoll s` — `std::stoll`: leading white space, an optional sign, digits, and
  whatever follows them.

## Main results

* `find_append`, `exists_of_find` — the position found is the end of the longest
  run without the character.
* `range_append`, `range_append_eq_none` — ranges that begin behind a prefix.
* `stoll_toDecimal` — **reading back a number that was written.**
* `length_toDecimal_le_of_stoll` — no text for a number is shorter than the one
  written for it.
-/

namespace StdString

/-- The exceptions the operations throw. -/
inductive Exn
  | outOfRange
  | invalidArgument
  deriving DecidableEq, Repr

/-! ### Searching and cutting -/

/-- `s.find(c, pos)` -/
def find (s : Bytes) (c : UInt8) (pos : ℕ) : Option ℕ :=
  ((s.drop pos).findIdx? (· == c)).map (pos + ·)

/-- `s.substr(pos, n)` -/
def substr (s : Bytes) (pos n : ℕ) : Except Exn Bytes :=
  if pos ≤ s.length then .ok (slice pos n s) else .error .outOfRange

/-- The bytes between `s.begin() + first` and `s.begin() + last`, if the string has
both positions in this order. -/
def range (s : Bytes) (first last : Int) : Option Bytes :=
  if 0 ≤ first ∧ first ≤ last ∧ last ≤ s.length then
    some (slice first.toNat (last - first).toNat s)
  else none

/-- The text of `s.c_str()`, which ends at the first zero byte, or at the terminator. -/
def cString (s : Bytes) : Bytes := s.takeWhile (· != 0)

/-- A string without a zero byte is seen whole. -/
theorem cString_eq_self {s : Bytes} (h : 0 ∉ s) : cString s = s :=
  List.takeWhile_eq_self_iff.mpr fun _ hb => bne_iff_ne.mpr fun hzero => h (hzero ▸ hb)

theorem find_append {s l r : Bytes} {c : UInt8} {pos : ℕ} (hs : s.drop pos = l ++ c :: r)
    (hl : c ∉ l) : find s c pos = some (pos + l.length) := by
  have hnone : l.findIdx? (· == c) = none := by
    rw [List.findIdx?_eq_none_iff]
    intro x hx
    exact beq_eq_false_iff_ne.2 fun h => hl (h ▸ hx)
  rw [find, hs, List.findIdx?_append, hnone, List.findIdx?_cons]
  simp

theorem exists_of_find {s : Bytes} {c : UInt8} {pos i : ℕ} (h : find s c pos = some i) :
    ∃ l r, s.drop pos = l ++ c :: r ∧ c ∉ l ∧ i = pos + l.length := by
  rw [find, Option.map_eq_some_iff] at h
  obtain ⟨k, hk, rfl⟩ := h
  rw [List.findIdx?_eq_some_iff_getElem] at hk
  obtain ⟨hlt, hc, hbefore⟩ := hk
  refine ⟨(s.drop pos).take k, (s.drop pos).drop (k + 1), ?_, ?_, ?_⟩
  · rw [← eq_of_beq hc, ← List.drop_eq_getElem_cons hlt, List.take_append_drop]
  · intro hmem
    obtain ⟨j, hj, hjc⟩ := List.mem_iff_getElem.1 hmem
    rw [List.length_take] at hj
    rw [List.getElem_take] at hjc
    exact hbefore j (by omega) (beq_iff_eq.2 hjc)
  · rw [List.length_take]
    omega

theorem notMem_of_find_eq_none {s : Bytes} {c : UInt8} {pos : ℕ} (h : find s c pos = none) :
    c ∉ s.drop pos := by
  rw [find, Option.map_eq_none_iff, List.findIdx?_eq_none_iff] at h
  exact fun hmem => absurd (h c hmem) (by simp)

/-- The first `n` bytes behind a prefix. -/
theorem range_append {pre body : Bytes} {n : Int} (h0 : 0 ≤ n) (hle : n ≤ body.length) :
    range (pre ++ body) pre.length (pre.length + n) = some (body.take n.toNat) := by
  rw [range, if_pos (by rw [List.length_append]; omega), slice, Int.toNat_natCast,
    List.drop_left, show (pre.length + n - pre.length : Int) = n by omega]

/-- There are not that many bytes behind the prefix. -/
theorem range_append_eq_none {pre body : Bytes} {n : Int} (h : n < 0 ∨ body.length < n) :
    range (pre ++ body) pre.length (pre.length + n) = none := by
  rw [range, if_neg (by rw [List.length_append]; omega)]

/-! ### Decimal numbers -/

/-- A decimal digit. -/
def isDigit (b : UInt8) : Bool := 48 ≤ b && b ≤ 57

/-- `isspace` in the C locale. -/
def isSpace (b : UInt8) : Bool := b == 32 || (9 ≤ b && b ≤ 13)

/-- `std::to_string(n)` -/
def toDecimal (n : ℕ) : Bytes := (Nat.toDigits 10 n).map fun c => c.toNat.toUInt8

/-- The number a run of digits spells. -/
def digitsValue (ds : Bytes) : ℕ := ds.foldl (fun v b => 10 * v + (b.toNat - 48)) 0

/-- Whether a text begins with a minus sign, and the text without its sign. -/
def takeSign : Bytes → Bool × Bytes
  | [] => (false, [])
  | b :: u => if b = 45 then (true, u) else if b = 43 then (false, u) else (false, b :: u)

/-- `std::stoll(s)` -/
def stoll (s : Bytes) : Except Exn Int :=
  let signed := takeSign (s.dropWhile isSpace)
  let digits := signed.2.takeWhile isDigit
  if digits = [] then .error .invalidArgument
  else
    let value : Int := if signed.1 then -(digitsValue digits : Int) else digitsValue digits
    if -2 ^ 63 ≤ value ∧ value < 2 ^ 63 then .ok value else .error .outOfRange

theorem digitByte {d : ℕ} (h : d < 10) :
    (Nat.digitChar d).toNat.toUInt8 = UInt8.ofNat (48 + d) := by
  interval_cases d <;> rfl

/-- The last digit comes off the end. -/
theorem toDecimal_eq (n : ℕ) :
    toDecimal n = (if n < 10 then [] else toDecimal (n / 10)) ++ [UInt8.ofNat (48 + n % 10)] := by
  unfold toDecimal
  rw [Nat.toDigits_eq_if (by omega)]
  split
  · rw [List.map_singleton, digitByte (by omega), Nat.mod_eq_of_lt (by omega), List.nil_append]
  · rw [List.map_append, List.map_singleton, digitByte (by omega)]

theorem toNat_digit {d : ℕ} (h : d < 10) : (UInt8.ofNat (48 + d)).toNat = 48 + d := by
  rw [UInt8.toNat_ofNat']
  omega

theorem isDigit_digit {d : ℕ} (h : d < 10) : isDigit (UInt8.ofNat (48 + d)) = true := by
  rw [isDigit, Bool.and_eq_true, decide_eq_true_eq, decide_eq_true_eq, UInt8.le_iff_toNat_le,
    UInt8.le_iff_toNat_le, toNat_digit h]
  exact ⟨Nat.le_add_right 48 d, by show 48 + d ≤ 57; omega⟩

theorem isDigit_of_mem_toDecimal {n : ℕ} {b : UInt8} (h : b ∈ toDecimal n) :
    isDigit b = true := by
  induction n using Nat.strong_induction_on with
  | _ n ih =>
    rw [toDecimal_eq, List.mem_append, List.mem_singleton] at h
    obtain h | rfl := h
    · split at h
      · exact absurd h List.not_mem_nil
      · exact ih (n / 10) (by omega) h
    · exact isDigit_digit (by omega)

theorem digitsValue_append_singleton (ds : Bytes) (b : UInt8) :
    digitsValue (ds ++ [b]) = 10 * digitsValue ds + (b.toNat - 48) := by
  rw [digitsValue, List.foldl_append]
  rfl

theorem digitsValue_toDecimal (n : ℕ) : digitsValue (toDecimal n) = n := by
  induction n using Nat.strong_induction_on with
  | _ n ih =>
    rw [toDecimal_eq, digitsValue_append_singleton, toNat_digit (by omega)]
    split
    · show 10 * 0 + _ = n
      omega
    · rw [ih (n / 10) (by omega)]
      omega

theorem toDecimal_ne_nil (n : ℕ) : toDecimal n ≠ [] := by
  rw [toDecimal_eq]
  exact List.append_ne_nil_of_right_ne_nil _ (List.cons_ne_nil _ _)

theorem digitsValue_lt {ds : Bytes} (h : ∀ b ∈ ds, isDigit b = true) :
    digitsValue ds < 10 ^ ds.length := by
  induction ds using List.reverseRecOn with
  | nil => exact Nat.one_pos
  | append_singleton ds b ih =>
    have hb := h b (List.mem_append_right _ (List.mem_singleton_self b))
    rw [isDigit, Bool.and_eq_true, decide_eq_true_eq, decide_eq_true_eq, UInt8.le_iff_toNat_le,
      UInt8.le_iff_toNat_le] at hb
    have hb57 : b.toNat ≤ 57 := hb.2
    have hds := ih fun c hc => h c (List.mem_append_left _ hc)
    rw [digitsValue_append_singleton, List.length_append, List.length_singleton, pow_succ]
    omega

/-! ### Reading numbers -/

theorem not_isSpace_of_isDigit {b : UInt8} (h : isDigit b = true) : isSpace b = false := by
  rw [isDigit, Bool.and_eq_true, decide_eq_true_eq, decide_eq_true_eq] at h
  rw [isSpace]
  grind

theorem takeSign_of_isDigit {b : UInt8} (u : Bytes) (h : isDigit b = true) :
    takeSign (b :: u) = (false, b :: u) := by
  have h45 : b ≠ 45 := by rintro rfl; exact absurd h (by decide)
  have h43 : b ≠ 43 := by rintro rfl; exact absurd h (by decide)
  rw [takeSign, if_neg h45, if_neg h43]

theorem length_takeSign_le (s : Bytes) : (takeSign s).2.length ≤ s.length := by
  cases s with
  | nil => exact Nat.le_refl _
  | cons b u =>
    rw [takeSign]
    split_ifs
    · exact Nat.le_succ _
    · exact Nat.le_succ _
    · exact Nat.le_refl _

/-- Digits alone read as the number they spell, if the type has room for it. -/
theorem stoll_digits {ds : Bytes} (hne : ds ≠ []) (h : ∀ b ∈ ds, isDigit b = true) :
    stoll ds = if digitsValue ds < 2 ^ 63 then .ok (digitsValue ds) else .error .outOfRange := by
  have htake : ds.takeWhile isDigit = ds := List.takeWhile_eq_self_iff.2 h
  obtain ⟨b, u, hcons⟩ := List.exists_cons_of_ne_nil hne
  have hb : isDigit b = true := h b (hcons ▸ List.mem_cons_self)
  have hdrop : ds.dropWhile isSpace = ds := by
    rw [hcons, List.dropWhile_cons_of_neg (by rw [not_isSpace_of_isDigit hb]; decide)]
  have hsign : takeSign ds = (false, ds) := by
    rw [hcons, takeSign_of_isDigit u hb]
  simp only [stoll, hdrop, hsign, htake, if_neg hne, Bool.false_eq_true, if_false]
  split_ifs <;> first | rfl | omega

theorem stoll_toDecimal_eq (n : ℕ) :
    stoll (toDecimal n) = if n < 2 ^ 63 then .ok n else .error .outOfRange := by
  rw [stoll_digits (toDecimal_ne_nil n) fun b hb => isDigit_of_mem_toDecimal hb,
    digitsValue_toDecimal]

/-- Reading back a number that was written. -/
theorem stoll_toDecimal {n : ℕ} (h : n < 2 ^ 63) : stoll (toDecimal n) = .ok n := by
  rw [stoll_toDecimal_eq, if_pos h]

/-- What `stoll` returns fits the type. -/
theorem stoll_range {s : Bytes} {v : Int} (h : stoll s = .ok v) : -2 ^ 63 ≤ v ∧ v < 2 ^ 63 := by
  unfold stoll at h
  dsimp only at h
  split_ifs at h
  all_goals
    cases h
    assumption

/-- No text for a number is shorter than the one written for it. -/
theorem length_toDecimal_le_of_stoll {s : Bytes} {v : Int} (h : stoll s = .ok v) :
    (toDecimal v.toNat).length ≤ s.length := by
  unfold stoll at h
  dsimp only at h
  set signed := takeSign (s.dropWhile isSpace) with hsigned
  set digits := signed.2.takeWhile isDigit with hdigits
  have hlen : digits.length ≤ s.length :=
    calc digits.length ≤ signed.2.length := (List.takeWhile_sublist _).length_le
      _ ≤ (s.dropWhile isSpace).length := length_takeSign_le _
      _ ≤ s.length := (List.dropWhile_sublist _).length_le
  have hvalue : digitsValue digits < 10 ^ digits.length :=
    digitsValue_lt fun b hb => List.mem_takeWhile_imp hb
  split_ifs at h with hnil
  -- a negative value counts as zero, a positive one as its digits
  all_goals
    cases h
    have hpos : 0 < digits.length := List.length_pos_iff.2 hnil
    refine Nat.le_trans ?_ hlen
    rw [toDecimal, List.length_map, Nat.length_toDigits_le_iff (by decide) hpos]
    omega

end StdString
