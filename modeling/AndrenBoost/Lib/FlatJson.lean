import AndrenBoost.Lib.StdString

/-!
# JSON texts of flat objects

The compact text of an object whose members are strings and unsigned numbers, and
a reader for it.  Strings are byte strings; control characters, quotes and
backslashes are escaped, and every other byte stands for itself.

## Main definitions

* `Value`, `dump` — a member's value, and the text of a list of members.
* `parse` — the reader, for texts without white space.

## Main results

* `unescape_escape` — a string reads back in front of anything.
* `parse_dump` — **an object reads back.**
* `parse_append_eq_none` — **a text that reads is not the beginning of another.**
* `zero_notMem_dump` — no text holds a zero byte.
-/

namespace FlatJson

open StdString

/-- The value of a member. -/
inductive Value
  | text (s : Bytes)
  | number (n : UInt64)
  deriving DecidableEq

/-! ### Strings -/

/-- A hexadecimal digit, in lower case. -/
def hexDigit (d : ℕ) : UInt8 := if d < 10 then UInt8.ofNat (48 + d) else UInt8.ofNat (87 + d)

/-- The value of a hexadecimal digit. -/
def hexValue (b : UInt8) : Option ℕ :=
  if 48 ≤ b ∧ b ≤ 57 then some (b.toNat - 48)
  else if 97 ≤ b ∧ b ≤ 102 then some (b.toNat - 87)
  else none

/-- The character behind the backslash of a short escape, and what it stands for. -/
def shortEscapes : List (UInt8 × UInt8) :=
  [(34, 34), (92, 92), (98, 8), (102, 12), (110, 10), (114, 13), (116, 9)]

/-- The text of a byte within a string. -/
def escapeByte (b : UInt8) : Bytes :=
  match shortEscapes.find? fun p => p.2 == b with
  | some e => [92, e.1]
  | none =>
    if b < 32 then [92, 117, 48, 48, hexDigit (b.toNat / 16), hexDigit (b.toNat % 16)] else [b]

/-- The text of a string without its quotes. -/
def escape (s : Bytes) : Bytes := s.flatMap escapeByte

/-- The byte an escape of two hexadecimal digits stands for. -/
def hexByte (h l : UInt8) : Option UInt8 :=
  (hexValue h).bind fun h => (hexValue l).map fun l => UInt8.ofNat (16 * h + l)

/-- The next byte of a string, or none for the closing quote, and what follows it. -/
def readByte : Bytes → Option (Option UInt8 × Bytes)
  | [] => none
  | b :: rest =>
    if b = 34 then some (none, rest)
    else if b = 92 then
      match rest with
      | [] => none
      | e :: rest =>
        if e = 117 then
          match rest with
          | z :: z' :: h :: l :: rest =>
            if z = 48 ∧ z' = 48 then (hexByte h l).map fun c => (some c, rest) else none
          | _ => none
        else (shortEscapes.find? fun p => p.1 == e).map fun p => (some p.2, rest)
    else if b < 32 then none
    else some (some b, rest)

/-- A string of less than `n` bytes up to its closing quote, and what follows it. -/
def unescape : ℕ → Bytes → Option (Bytes × Bytes)
  | 0, _ => none
  | n + 1, s => (readByte s).bind fun (c, rest) =>
      match c with
      | none => some ([], rest)
      | some b => (unescape n rest).map fun (s, r) => (b :: s, r)

theorem hexValue_hexDigit {d : ℕ} (h : d < 16) : hexValue (hexDigit d) = some d := by
  interval_cases d <;> decide

theorem hexByte_hexDigit (b : UInt8) :
    hexByte (hexDigit (b.toNat / 16)) (hexDigit (b.toNat % 16)) = some b := by
  have hlt := b.toNat_lt
  rw [hexByte, hexValue_hexDigit (by omega), hexValue_hexDigit (by omega), Option.bind_some,
    Option.map_some, Nat.div_add_mod, UInt8.ofNat_toNat]

/-- A byte reads back in front of anything. -/
theorem readByte_escapeByte (b : UInt8) (r : Bytes) :
    readByte (escapeByte b ++ r) = some (some b, r) := by
  unfold escapeByte
  cases hshort : shortEscapes.find? fun p => p.2 == b with
  | some e =>
    have hmem := List.mem_of_find?_eq_some hshort
    have hb : (e.2 == b) = true := by
      have := List.find?_some hshort
      exact this
    obtain rfl := eq_of_beq hb
    simp only [shortEscapes, List.mem_cons, List.not_mem_nil, or_false] at hmem
    obtain rfl | rfl | rfl | rfl | rfl | rfl | rfl := hmem <;> rfl
  | none =>
    dsimp only
    have hne : ∀ e ∈ shortEscapes, b ≠ e.2 := fun e he heq =>
      List.find?_eq_none.1 hshort e he (beq_iff_eq.2 heq.symm)
    split_ifs with hctl
    · show readByte (92 :: 117 :: 48 :: 48 :: hexDigit (b.toNat / 16) :: hexDigit (b.toNat % 16)
        :: r) = _
      rw [readByte, if_neg (by decide), if_pos rfl, if_pos rfl, if_pos ⟨rfl, rfl⟩,
        hexByte_hexDigit, Option.map_some]
    · show readByte (b :: r) = _
      rw [readByte.eq_def]
      dsimp only
      rw [if_neg (hne (34, 34) (by decide)), if_neg (hne (92, 92) (by decide)), if_neg hctl]

/-- A string reads back in front of anything. -/
theorem unescape_escape {s : Bytes} {n : ℕ} (hn : s.length < n) (r : Bytes) :
    unescape n (escape s ++ 34 :: r) = some (s, r) := by
  induction s generalizing n with
  | nil =>
    cases n with
    | zero => exact absurd hn (Nat.not_lt_zero 0)
    | succ n => rfl
  | cons b s ih =>
    cases n with
    | zero => exact absurd hn (Nat.not_lt_zero _)
    | succ n =>
      rw [escape, List.flatMap_cons, List.append_assoc, unescape, readByte_escapeByte,
        Option.bind_some]
      dsimp only
      rw [← escape, ih (Nat.lt_of_succ_lt_succ hn)]
      rfl

theorem escapeByte_ne_nil (b : UInt8) : escapeByte b ≠ [] := by
  unfold escapeByte
  cases shortEscapes.find? fun p => p.2 == b with
  | some e => exact List.cons_ne_nil _ _
  | none => dsimp only; split_ifs <;> exact List.cons_ne_nil _ _

theorem length_le_length_escape (s : Bytes) : s.length ≤ (escape s).length := by
  induction s with
  | nil => exact Nat.le_refl _
  | cons b s ih =>
    have hb := List.length_pos_iff.2 (escapeByte_ne_nil b)
    rw [escape, List.flatMap_cons, List.length_append, List.length_cons]
    rw [escape] at ih
    omega

theorem hexDigit_ne_zero {d : ℕ} (h : d < 16) : (0 : UInt8) ≠ hexDigit d := by
  interval_cases d <;> decide

theorem zero_notMem_escapeByte (b : UInt8) : 0 ∉ escapeByte b := by
  have hlt := b.toNat_lt
  unfold escapeByte
  cases hshort : shortEscapes.find? fun p => p.2 == b with
  | some e =>
    have hmem := List.mem_of_find?_eq_some hshort
    simp only [shortEscapes, List.mem_cons, List.not_mem_nil, or_false] at hmem
    show 0 ∉ [92, e.1]
    obtain rfl | rfl | rfl | rfl | rfl | rfl | rfl := hmem <;> decide
  | none =>
    dsimp only
    split_ifs with hctl
    · have hhi := hexDigit_ne_zero (d := b.toNat / 16) (by omega)
      have hlo := hexDigit_ne_zero (d := b.toNat % 16) (by omega)
      simp [hhi, hlo]
    · rw [List.mem_singleton]
      rintro rfl
      exact hctl (by decide)

theorem zero_notMem_escape (s : Bytes) : 0 ∉ escape s := by
  intro h
  obtain ⟨b, -, hb⟩ := List.mem_flatMap.1 h
  exact zero_notMem_escapeByte b hb

/-! ### Members -/

/-- The text of a string. -/
def quote (s : Bytes) : Bytes := 34 :: (escape s ++ [34])

/-- The text of a value. -/
def dumpValue : Value → Bytes
  | .text s => quote s
  | .number n => toDecimal n.toNat

/-- The text of a member. -/
def dumpMember (m : Bytes × Value) : Bytes := quote m.1 ++ 58 :: dumpValue m.2

/-- The text behind the first member. -/
def dumpTail : List (Bytes × Value) → Bytes
  | [] => [125]
  | m :: ms => 44 :: (dumpMember m ++ dumpTail ms)

/-- The text of an object. -/
def dump : List (Bytes × Value) → Bytes
  | [] => [123, 125]
  | m :: ms => 123 :: (dumpMember m ++ dumpTail ms)

/-- A string with its quotes, and what follows it. -/
def readString : Bytes → Option (Bytes × Bytes)
  | [] => none
  | b :: rest => if b = 34 then unescape (rest.length + 1) rest else none

/-- A value, and what follows it. -/
def readValue (s : Bytes) : Option (Value × Bytes) :=
  if s.head? = some 34 then (readString s).map fun (t, r) => (.text t, r)
  else
    let digits := s.takeWhile isDigit
    if digits = [] ∨ 2 ^ 64 ≤ digitsValue digits then none
    else some (.number (UInt64.ofNat (digitsValue digits)), s.dropWhile isDigit)

/-- A member, and what follows it. -/
def readMember (s : Bytes) : Option ((Bytes × Value) × Bytes) :=
  (readString s).bind fun (key, rest) =>
    match rest with
    | [] => none
    | b :: rest =>
      if b = 58 then (readValue rest).map fun (v, r) => ((key, v), r) else none

/-- Less than `n` members behind the first, and what follows the object. -/
def readTail : ℕ → Bytes → Option (List (Bytes × Value) × Bytes)
  | 0, _ => none
  | _ + 1, [] => none
  | n + 1, b :: rest =>
    if b = 125 then some ([], rest)
    else if b = 44 then
      (readMember rest).bind fun (m, r) => (readTail n r).map fun (ms, r) => (m :: ms, r)
    else none

/-- The object a text stands for. -/
def parse : Bytes → Option (List (Bytes × Value))
  | [] => none
  | b :: rest =>
    if b = 123 then
      if rest = [125] then some []
      else (readMember rest).bind fun (m, r) =>
        match readTail (r.length + 1) r with
        | some (ms, []) => some (m :: ms)
        | _ => none
    else none

theorem readString_quote (s r : Bytes) : readString (quote s ++ r) = some (s, r) := by
  have hlen := length_le_length_escape s
  show (if (34 : UInt8) = 34 then unescape _ (escape s ++ [34] ++ r) else none) = _
  rw [if_pos rfl, List.append_assoc]
  refine unescape_escape ?_ r
  show s.length < (escape s ++ [34] ++ r).length + 1
  rw [List.length_append, List.length_append]
  omega

/-- A value reads back in front of what is not a digit. -/
theorem readValue_dumpValue (v : Value) {c : UInt8} (hc : isDigit c = false) (r : Bytes) :
    readValue (dumpValue v ++ c :: r) = some (v, c :: r) := by
  cases v with
  | text s =>
    unfold readValue dumpValue
    rw [if_pos (by rfl), readString_quote]
    rfl
  | number n =>
    have hdigits := fun b hb => isDigit_of_mem_toDecimal (n := n.toNat) (b := b) hb
    obtain ⟨d, ds, hcons⟩ := List.exists_cons_of_ne_nil (toDecimal_ne_nil n.toNat)
    have hd : isDigit d = true := hdigits d (hcons ▸ List.mem_cons_self)
    have hquote : (toDecimal n.toNat ++ c :: r).head? ≠ some 34 := by
      rw [hcons]
      rintro ⟨⟩
      exact absurd hd (by decide)
    have htake : (toDecimal n.toNat ++ c :: r).takeWhile isDigit = toDecimal n.toNat := by
      rw [List.takeWhile_append_of_pos hdigits, List.takeWhile_cons_of_neg (by rw [hc]; decide),
        List.append_nil]
    have hdrop : (toDecimal n.toNat ++ c :: r).dropWhile isDigit = c :: r := by
      rw [List.dropWhile_append_of_pos hdigits, List.dropWhile_cons_of_neg (by rw [hc]; decide)]
    unfold readValue dumpValue
    rw [if_neg hquote]
    dsimp only
    rw [htake, hdrop, digitsValue_toDecimal, if_neg, UInt64.ofNat_toNat]
    rintro (h | h)
    · exact toDecimal_ne_nil _ h
    · exact absurd n.toNat_lt (Nat.not_lt.2 h)

/-- A member reads back in front of what is not a digit. -/
theorem readMember_dumpMember (m : Bytes × Value) {c : UInt8} (hc : isDigit c = false)
    (r : Bytes) : readMember (dumpMember m ++ c :: r) = some (m, c :: r) := by
  unfold readMember dumpMember
  rw [List.append_assoc, readString_quote, Option.bind_some]
  dsimp only
  rw [List.cons_append]
  dsimp only
  rw [if_pos rfl, readValue_dumpValue m.2 hc]
  rfl

/-- What follows a member is not a digit. -/
theorem exists_dumpTail_eq_cons (ms : List (Bytes × Value)) :
    ∃ c r, isDigit c = false ∧ dumpTail ms = c :: r := by
  cases ms with
  | nil => exact ⟨125, [], by decide, rfl⟩
  | cons m ms => exact ⟨44, _, by decide, rfl⟩

theorem readTail_dumpTail {ms : List (Bytes × Value)} {n : ℕ} (hn : ms.length < n) :
    readTail n (dumpTail ms) = some (ms, []) := by
  induction ms generalizing n with
  | nil =>
    cases n with
    | zero => exact absurd hn (Nat.not_lt_zero 0)
    | succ n => rfl
  | cons m ms ih =>
    cases n with
    | zero => exact absurd hn (Nat.not_lt_zero _)
    | succ n =>
      obtain ⟨c, r, hc, htail⟩ := exists_dumpTail_eq_cons ms
      rw [dumpTail, readTail, if_neg (by decide), if_pos rfl, htail, readMember_dumpMember m hc,
        Option.bind_some]
      dsimp only
      rw [← htail, ih (Nat.lt_of_succ_lt_succ hn)]
      rfl

theorem length_le_length_dumpTail (ms : List (Bytes × Value)) :
    ms.length ≤ (dumpTail ms).length := by
  induction ms with
  | nil => exact Nat.zero_le _
  | cons m ms ih =>
    rw [dumpTail, List.length_cons, List.length_cons, List.length_append]
    omega

/-- An object reads back. -/
theorem parse_dump (ms : List (Bytes × Value)) : parse (dump ms) = some ms := by
  cases ms with
  | nil => rfl
  | cons m ms =>
    obtain ⟨c, r, hc, htail⟩ := exists_dumpTail_eq_cons ms
    have hne : dumpMember m ++ dumpTail ms ≠ [125] := by
      intro h
      have hhead : (34 : UInt8) = 125 := (List.cons.inj h).1
      exact absurd hhead (by decide)
    have hlen := length_le_length_dumpTail ms
    rw [dump, parse, if_pos rfl, if_neg hne, htail, readMember_dumpMember m hc, Option.bind_some,
      ← htail]
    dsimp only
    rw [readTail_dumpTail (by omega)]

/-! ### Reading in front of more -/

theorem readByte_append {s r : Bytes} {c : Option UInt8} (h : readByte s = some (c, r))
    (x : Bytes) : readByte (s ++ x) = some (c, r ++ x) := by
  rcases s with _ | ⟨b, rest⟩
  · exact absurd h (by simp [readByte])
  by_cases hquote : b = 34
  · simp_all [readByte]
  by_cases hslash : b = 92
  · -- the escapes: a short one, or one of two hexadecimal digits
    rcases rest with _ | ⟨e, rest⟩
    · simp_all [readByte]
    by_cases hu : e = 117
    · rcases rest with _ | ⟨z, _ | ⟨z', _ | ⟨h₁, _ | ⟨h₂, rest⟩⟩⟩⟩
      all_goals simp_all [readByte]
    · simp_all [readByte]
  · simp_all [readByte]

theorem unescape_append {n n' : ℕ} {s t r : Bytes} (h : unescape n s = some (t, r))
    (hn : n ≤ n') (x : Bytes) : unescape n' (s ++ x) = some (t, r ++ x) := by
  induction n generalizing n' s t with
  | zero => exact absurd h (by simp [unescape])
  | succ n ih =>
    cases n' with
    | zero => exact absurd hn (Nat.not_succ_le_zero n)
    | succ n' =>
      rw [unescape] at h ⊢
      obtain ⟨⟨c, rest⟩, hbyte, hcont⟩ := Option.bind_eq_some_iff.1 h
      rw [readByte_append hbyte, Option.bind_some]
      cases c with
      | none => simp_all
      | some b =>
        obtain ⟨⟨t', r'⟩, hrest, heq⟩ := Option.map_eq_some_iff.1 hcont
        simp only [Prod.mk.injEq] at heq
        obtain ⟨rfl, rfl⟩ := heq
        dsimp only
        rw [ih hrest (Nat.le_of_succ_le_succ hn)]
        rfl

theorem readString_append {s t r : Bytes} (h : readString s = some (t, r)) (x : Bytes) :
    readString (s ++ x) = some (t, r ++ x) := by
  rcases s with _ | ⟨b, rest⟩
  · exact absurd h (by simp [readString])
  rw [readString] at h
  rw [List.cons_append, readString]
  split_ifs at h ⊢ with hb
  exact unescape_append h (by rw [List.length_append]; omega) x

/-- What was read of a string begins with its quote. -/
theorem exists_cons_of_readString {s t r : Bytes} (h : readString s = some (t, r)) :
    ∃ rest, s = 34 :: rest := by
  rcases s with _ | ⟨b, rest⟩
  · exact absurd h (by simp [readString])
  rw [readString] at h
  split_ifs at h with hb
  exact ⟨rest, by rw [hb]⟩

/-- A number ends with the first byte that is not a digit, so it matters that there
is one. -/
theorem readValue_append {s r : Bytes} {v : Value} {c : UInt8}
    (h : readValue s = some (v, c :: r)) (x : Bytes) :
    readValue (s ++ x) = some (v, c :: r ++ x) := by
  have hne : s ≠ [] := by
    rintro rfl
    exact absurd h (by simp [readValue])
  have hhead : (s ++ x).head? = s.head? := by
    rw [List.head?_append_of_ne_nil _ hne]
  rw [readValue] at h ⊢
  rw [hhead]
  split_ifs at h ⊢ with hquote
  · obtain ⟨⟨t, r'⟩, hread, heq⟩ := Option.map_eq_some_iff.1 h
    rw [readString_append hread]
    simp_all
  · dsimp only at h ⊢
    split_ifs at h with hdigits
    simp only [Option.some.injEq, Prod.mk.injEq] at h
    have hlen : (s.takeWhile isDigit).length ≠ s.length := by
      have hsplit := congrArg List.length (List.takeWhile_append_dropWhile (p := isDigit) (l := s))
      rw [List.length_append, h.2, List.length_cons] at hsplit
      omega
    rw [List.takeWhile_append, if_neg hlen, List.dropWhile_append, h.2, if_neg hdigits, ← h.1]
    rfl

theorem readMember_append {s r : Bytes} {m : Bytes × Value} {c : UInt8}
    (h : readMember s = some (m, c :: r)) (x : Bytes) :
    readMember (s ++ x) = some (m, c :: r ++ x) := by
  rw [readMember] at h ⊢
  obtain ⟨⟨key, rest⟩, hkey, hvalue⟩ := Option.bind_eq_some_iff.1 h
  rw [readString_append hkey, Option.bind_some]
  rcases rest with _ | ⟨b, rest⟩
  · exact absurd hvalue (by simp)
  dsimp only [List.cons_append] at hvalue ⊢
  split_ifs at hvalue ⊢ with hb
  obtain ⟨⟨v, r'⟩, hread, heq⟩ := Option.map_eq_some_iff.1 hvalue
  simp only [Prod.mk.injEq] at heq
  obtain ⟨rfl, rfl⟩ := heq
  rw [readValue_append hread]
  rfl

/-- Behind a member there is at least the brace. -/
theorem exists_cons_of_readTail {n : ℕ} {s r : Bytes} {ms : List (Bytes × Value)}
    (h : readTail n s = some (ms, r)) : ∃ c rest, s = c :: rest := by
  rcases s with _ | ⟨c, rest⟩
  · cases n <;> exact absurd h (by simp [readTail])
  · exact ⟨c, rest, rfl⟩

theorem readTail_append {n n' : ℕ} {s r : Bytes} {ms : List (Bytes × Value)}
    (h : readTail n s = some (ms, r)) (hn : n ≤ n') (x : Bytes) :
    readTail n' (s ++ x) = some (ms, r ++ x) := by
  induction n generalizing n' s ms with
  | zero => exact absurd h (by simp [readTail])
  | succ n ih =>
    cases n' with
    | zero => exact absurd hn (Nat.not_succ_le_zero n)
    | succ n' =>
      rcases s with _ | ⟨b, rest⟩
      · exact absurd h (by simp [readTail])
      rw [readTail] at h
      rw [List.cons_append, readTail]
      split_ifs at h ⊢ with hbrace hcomma
      · simp_all
      · obtain ⟨⟨m, r₁⟩, hmember, hcont⟩ := Option.bind_eq_some_iff.1 h
        obtain ⟨⟨ms', r₂⟩, hrest, heq⟩ := Option.map_eq_some_iff.1 hcont
        obtain ⟨c, r₁, rfl⟩ := exists_cons_of_readTail hrest
        simp only [Prod.mk.injEq] at heq
        obtain ⟨rfl, rfl⟩ := heq
        rw [readMember_append hmember, Option.bind_some]
        dsimp only
        rw [ih hrest (Nat.le_of_succ_le_succ hn)]
        rfl

/-- **A text that reads is not the beginning of another.** -/
theorem parse_append_eq_none {s x : Bytes} {ms : List (Bytes × Value)} (h : parse s = some ms)
    (hx : x ≠ []) : parse (s ++ x) = none := by
  rcases s with _ | ⟨b, rest⟩
  · exact absurd h (by simp [parse])
  rw [parse] at h
  rw [List.cons_append, parse]
  by_cases hbrace : b = 123
  · rw [if_pos hbrace] at h ⊢
    by_cases hempty : rest = [125]
    · -- the empty object: no member begins with a brace
      rw [hempty, List.singleton_append, if_neg (by simpa using hx)]
      rfl
    · rw [if_neg hempty] at h
      obtain ⟨⟨m, r⟩, hmember, htail⟩ := Option.bind_eq_some_iff.1 h
      obtain ⟨⟨key, r'⟩, hkey, -⟩ := Option.bind_eq_some_iff.1 hmember
      obtain ⟨rest', rfl⟩ := exists_cons_of_readString hkey
      rw [if_neg (by rw [List.cons_append]; rintro ⟨⟩)]
      dsimp only at htail
      cases hread : readTail (r.length + 1) r with
      | none => rw [hread] at htail; exact absurd htail (by simp)
      | some p =>
        rw [hread] at htail
        obtain ⟨ms', left⟩ := p
        rcases left with _ | ⟨l, left⟩
        · obtain ⟨c, r, rfl⟩ := exists_cons_of_readTail hread
          rw [readMember_append hmember, Option.bind_some]
          dsimp only
          rw [readTail_append hread (by simp), List.nil_append]
          rcases x with _ | ⟨y, x⟩
          · exact absurd rfl hx
          · rfl
        · exact absurd htail (by simp)
  · rw [if_neg hbrace] at h
    exact absurd h (by simp)

/-! ### No zero bytes -/

theorem zero_notMem_quote (s : Bytes) : 0 ∉ quote s := by
  rw [quote, List.mem_cons, List.mem_append, List.mem_singleton]
  rintro (h | h | h)
  · exact absurd h (by decide)
  · exact zero_notMem_escape s h
  · exact absurd h (by decide)

theorem zero_notMem_dumpMember (m : Bytes × Value) : 0 ∉ dumpMember m := by
  rw [dumpMember, List.mem_append, List.mem_cons]
  rintro (h | h | h)
  · exact zero_notMem_quote _ h
  · exact absurd h (by decide)
  · cases hv : m.2 with
    | text s =>
      rw [hv] at h
      exact zero_notMem_quote s h
    | number n =>
      rw [hv] at h
      exact absurd (isDigit_of_mem_toDecimal h) (by decide)

theorem zero_notMem_dumpTail (ms : List (Bytes × Value)) : 0 ∉ dumpTail ms := by
  induction ms with
  | nil => decide
  | cons m ms ih =>
    rw [dumpTail, List.mem_cons, List.mem_append]
    rintro (h | h | h)
    · exact absurd h (by decide)
    · exact zero_notMem_dumpMember m h
    · exact ih h

/-- No text holds a zero byte. -/
theorem zero_notMem_dump (ms : List (Bytes × Value)) : 0 ∉ dump ms := by
  cases ms with
  | nil => decide
  | cons m ms =>
    rw [dump, List.mem_cons, List.mem_append]
    rintro (h | h | h)
    · exact absurd h (by decide)
    · exact zero_notMem_dumpMember m h
    · exact zero_notMem_dumpTail ms h

end FlatJson
