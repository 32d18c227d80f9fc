import Limitr.ScriptHost

/-!
# A host to run on

One `Platform` written out, to run the model on concrete inputs.  It writes
small whole numbers and short arrays as MessagePack does: a number below 128 in
one byte, an array of fewer than sixteen elements behind the byte `0x90 + n`.
Everything else the laws speak of goes behind bytes of its own: any other
number behind `0xc1`, which MessagePack never uses, with its parts in unary,
and a longer array behind `0xdd` with its length in unary.

A value is dropped as soon as its time to live has passed.
-/

namespace Limitr

namespace ReferenceHost

/-! ## Counts -/

/-- A count written as that many ones and a zero. -/
def unary (n : ℕ) : List UInt8 := List.replicate n 1 ++ [0]

def readUnary : List UInt8 → Option (ℕ × List UInt8)
  | [] => none
  | b :: bytes =>
      if b = 1 then (readUnary bytes).map fun r => (r.1 + 1, r.2) else some (0, bytes)

@[simp] theorem readUnary_unary (n : ℕ) (rest : List UInt8) :
    readUnary (unary n ++ rest) = some (n, rest) := by
  induction n with
  | zero => rfl
  | succ n ih =>
      have hcons : unary (n + 1) ++ rest = 1 :: (unary n ++ rest) := rfl
      rw [hcons, readUnary, if_pos rfl, ih]
      rfl

/-! ## Numbers -/

def writeNumber : F64 → List UInt8
  | .nan => 0xc1 :: unary 0
  | .inf false => 0xc1 :: unary 1
  | .inf true => 0xc1 :: unary 2
  | .fin q =>
      if q.den = 1 ∧ 0 ≤ q.num ∧ q.num < 128 then [UInt8.ofNat q.num.toNat]
      else 0xc1 :: (unary (if q.num < 0 then 4 else 3) ++
        (unary q.num.natAbs ++ unary q.den))

/-- The number behind the byte `0xc1`. -/
def readParts (bytes : List UInt8) : Option (F64 × List UInt8) :=
  match readUnary bytes with
  | some (0, rest) => some (.nan, rest)
  | some (1, rest) => some (.inf false, rest)
  | some (2, rest) => some (.inf true, rest)
  | some (kind, rest) =>
      match readUnary rest with
      | some (num, rest) =>
          match readUnary rest with
          | some (den, rest) =>
              some (.fin (((if kind = 4 then -num else num : ℤ) : ℚ) / den), rest)
          | none => none
      | none => none
  | none => none

def readNumber : List UInt8 → Option (F64 × List UInt8)
  | [] => none
  | b :: bytes =>
      if b.toNat < 128 then some (.fin b.toNat, bytes)
      else if b = 0xc1 then readParts bytes else none

/-- A number is read back from its parts. -/
theorem readNumber_parts (q : ℚ) (rest : List UInt8) :
    readNumber (0xc1 :: (unary (if q.num < 0 then 4 else 3) ++
      (unary q.num.natAbs ++ unary q.den)) ++ rest) = some (.fin q, rest) := by
  have hhead : ¬(0xc1 : UInt8).toNat < 128 := by decide
  rw [List.cons_append, readNumber, if_neg hhead, if_pos rfl, List.append_assoc,
    List.append_assoc]
  by_cases hnum : q.num < 0
  · have habs : (-(q.num.natAbs : ℤ) : ℤ) = q.num := by omega
    rw [if_pos hnum]
    simp only [readParts, readUnary_unary, if_true, habs, Rat.num_div_den]
  · have habs : ((q.num.natAbs : ℤ) : ℤ) = q.num := by omega
    have hkind : ¬(3 : ℕ) = 4 := by decide
    rw [if_neg hnum]
    simp only [readParts, readUnary_unary, if_neg hkind, habs, Rat.num_div_den]

theorem readNumber_writeNumber (x : F64) (rest : List UInt8) :
    readNumber (writeNumber x ++ rest) = some (x, rest) := by
  cases x with
  | nan => simp [writeNumber, readNumber, readParts]
  | inf s => cases s <;> simp [writeNumber, readNumber, readParts]
  | fin q =>
      by_cases hsmall : q.den = 1 ∧ 0 ≤ q.num ∧ q.num < 128
      · obtain ⟨hden, hnonneg, hlt⟩ := hsmall
        have hbyte : (UInt8.ofNat q.num.toNat).toNat = q.num.toNat := by
          rw [UInt8.toNat_ofNat']
          omega
        have hvalue : ((q.num.toNat : ℕ) : ℚ) = q := by
          have h : ((q.num.toNat : ℕ) : ℤ) = q.num := Int.toNat_of_nonneg hnonneg
          rw [← Int.cast_natCast, h]
          exact Rat.den_eq_one_iff q |>.mp hden
        rw [writeNumber, if_pos ⟨hden, hnonneg, hlt⟩, List.singleton_append, readNumber, hbyte,
          if_pos (by omega), hvalue]
      · rw [writeNumber, if_neg hsmall]
        exact readNumber_parts q rest

/-! ## Values -/

def header (n : ℕ) : List UInt8 :=
  if n < 16 then [UInt8.ofNat (144 + n)] else 0xdd :: unary n

def readHeader : List UInt8 → Option (ℕ × List UInt8)
  | [] => none
  | b :: bytes =>
      if 144 ≤ b.toNat ∧ b.toNat < 160 then some (b.toNat - 144, bytes)
      else if b = 0xdd then readUnary bytes else none

theorem readHeader_header (n : ℕ) (rest : List UInt8) :
    readHeader (header n ++ rest) = some (n, rest) := by
  by_cases hn : n < 16
  · have hbyte : (UInt8.ofNat (144 + n)).toNat = 144 + n := by
      rw [UInt8.toNat_ofNat']
      omega
    rw [header, if_pos hn, List.singleton_append, readHeader, hbyte, if_pos (by omega),
      Nat.add_sub_cancel_left]
  · have hhead : ¬(144 ≤ (0xdd : UInt8).toNat ∧ (0xdd : UInt8).toNat < 160) := by decide
    rw [header, if_neg hn, List.cons_append, readHeader, if_neg hhead, if_pos rfl,
      readUnary_unary]

/-- No number begins like an array. -/
theorem readHeader_writeNumber (x : F64) (rest : List UInt8) :
    readHeader (writeNumber x ++ rest) = none := by
  cases x with
  | nan => rfl
  | inf s => cases s <;> rfl
  | fin q =>
      by_cases hsmall : q.den = 1 ∧ 0 ≤ q.num ∧ q.num < 128
      · have hlt : q.num.toNat < 128 := by omega
        have hbyte : (UInt8.ofNat q.num.toNat).toNat = q.num.toNat := by
          rw [UInt8.toNat_ofNat']
          omega
        have hne : UInt8.ofNat q.num.toNat ≠ 0xdd := by
          intro h
          have hnat : (UInt8.ofNat q.num.toNat).toNat = 221 := by rw [h]; rfl
          omega
        rw [writeNumber, if_pos hsmall, List.singleton_append, readHeader, hbyte,
          if_neg (by omega), if_neg hne]
      · rw [writeNumber, if_neg hsmall]
        rfl

mutual

/-- The bytes of a value; what the laws do not speak of is written as nil. -/
def encode : LuaValue → List UInt8
  | .number x => writeNumber x
  | .array elements => header elements.length ++ encodeAll elements
  | _ => [0xc0]

def encodeAll : List LuaValue → List UInt8
  | [] => []
  | v :: vs => encode v ++ encodeAll vs

end

def readNumbers : ℕ → List UInt8 → Option (List F64 × List UInt8)
  | 0, bytes => some ([], bytes)
  | n + 1, bytes =>
      match readNumber bytes with
      | some (x, rest) => (readNumbers n rest).map fun r => (x :: r.1, r.2)
      | none => none

def readValue (bytes : List UInt8) : Option (LuaValue × List UInt8) :=
  match readHeader bytes with
  | some (n, rest) => (readNumbers n rest).map fun r => (.array (r.1.map .number), r.2)
  | none => (readNumber bytes).map fun r => (.number r.1, r.2)

/-- The values found one after another, each at least one byte long. -/
def readAll : ℕ → List UInt8 → Option (List LuaValue)
  | _, [] => some []
  | 0, _ => none
  | n + 1, bytes =>
      match readValue bytes with
      | some (v, rest) => (readAll n rest).map (v :: ·)
      | none => none

def unpack (bytes : List UInt8) : Option (List LuaValue) := readAll bytes.length bytes

theorem readNumbers_encodeAll (xs : List F64) (rest : List UInt8) :
    readNumbers xs.length (encodeAll (xs.map .number) ++ rest) = some (xs, rest) := by
  induction xs with
  | nil => rfl
  | cons x xs ih =>
      rw [List.map_cons, encodeAll, encode, List.append_assoc, List.length_cons, readNumbers,
        readNumber_writeNumber]
      simp only [ih, Option.map_some]

/-- The elements of a packable array are numbers. -/
theorem exists_numbers {elements : List LuaValue}
    (h : ∀ v ∈ elements, ∃ x, v = .number x) :
    ∃ xs : List F64, elements = xs.map .number := by
  induction elements with
  | nil => exact ⟨[], rfl⟩
  | cons v elements ih =>
      obtain ⟨⟨x, hx⟩, hrest⟩ := List.forall_mem_cons.mp h
      obtain ⟨xs, hxs⟩ := ih hrest
      exact ⟨x :: xs, by rw [hx, hxs, List.map_cons]⟩

theorem readValue_encode {v : LuaValue} (hv : v.Packable) (rest : List UInt8) :
    readValue (encode v ++ rest) = some (v, rest) := by
  cases v with
  | number x =>
      rw [encode, readValue, readHeader_writeNumber, readNumber_writeNumber]
      rfl
  | array elements =>
      obtain ⟨xs, rfl⟩ := exists_numbers hv
      rw [encode, List.append_assoc, readValue, readHeader_header, List.length_map]
      simp only [readNumbers_encodeAll, Option.map_some]
  | nil => exact hv.elim
  | boolean b => exact hv.elim
  | string bytes => exact hv.elim
  | map entries => exact hv.elim

theorem writeNumber_ne_nil (x : F64) : writeNumber x ≠ [] := by
  intro h
  have hread := readNumber_writeNumber x []
  rw [h] at hread
  cases hread

theorem encode_ne_nil (v : LuaValue) : encode v ≠ [] := by
  cases v with
  | number x =>
      rw [encode]
      exact writeNumber_ne_nil x
  | array elements =>
      by_cases hlength : elements.length < 16
      · simp [encode, header, hlength]
      · simp [encode, header, hlength]
  | nil => simp [encode]
  | boolean b => simp [encode]
  | string bytes => simp [encode]
  | map entries => simp [encode]

theorem readAll_flatMap_encode {vs : List LuaValue} (hvs : ∀ v ∈ vs, v.Packable) {n : ℕ}
    (hn : (vs.flatMap encode).length ≤ n) : readAll n (vs.flatMap encode) = some vs := by
  induction vs generalizing n with
  | nil => cases n <;> rfl
  | cons v vs ih =>
      obtain ⟨hv, hrest⟩ := List.forall_mem_cons.mp hvs
      rw [List.flatMap_cons, List.length_append] at hn
      have hpos : 0 < (encode v).length := List.length_pos_iff.mpr (encode_ne_nil v)
      cases n with
      | zero => omega
      | succ n =>
          have hread := readValue_encode hv (vs.flatMap encode)
          have htail := ih hrest (n := n) (by omega)
          rw [List.flatMap_cons]
          cases hbytes : encode v ++ vs.flatMap encode with
          | nil => exact absurd (List.append_eq_nil_iff.mp hbytes).1 (encode_ne_nil v)
          | cons b bytes =>
              rw [hbytes] at hread
              simp only [readAll, hread, htail, Option.map_some]

/-! ## The Rust decoder -/

/-- A whole number in the range of a signed 64-bit integer. -/
def toInteger : F64 → Option Int64
  | .fin q =>
      if q.den = 1 ∧ (Int64.ofInt q.num).toInt = q.num then some (Int64.ofInt q.num) else none
  | _ => none

/-- The decoder stops at the first thing that is not what it wants. -/
def fromSlice (bytes : List UInt8) : Except String (F64 × Int64 × List F64) :=
  match readHeader bytes with
  | some (3, rest) =>
      match readNumbers 2 rest with
      | some ([x, y], rest) =>
          match toInteger y, readHeader rest with
          | some n, some (k, rest) =>
              match readNumbers k rest with
              | some (xs, _) => .ok (x, n, xs)
              | none => .error "invalid type, expected a sequence of f64"
          | _, _ => .error "invalid type, expected i64 and a sequence"
      | _ => .error "invalid type, expected f64"
  | _ => .error "invalid type, expected a tuple of size 3"

theorem fromSlice_of_readHeader {bytes rest : List UInt8} {n : ℕ}
    (h : readHeader bytes = some (n, rest)) (hn : n ≠ 3) :
    fromSlice bytes = .error "invalid type, expected a tuple of size 3" := by
  unfold fromSlice
  rw [h]
  split
  · next heq =>
      cases heq
      exact absurd rfl hn
  · rfl

theorem fromSlice_encode_other {v : LuaValue} (rest : List UInt8) (hv : v.Packable)
    (htriple : ¬v.IsTriple) : ∃ e, fromSlice (encode v ++ rest) = .error e := by
  cases v with
  | number x =>
      rw [encode, fromSlice, readHeader_writeNumber]
      exact ⟨_, rfl⟩
  | array elements =>
      have hlength : elements.length ≠ 3 := by
        intro h
        obtain ⟨a, b, c, habc⟩ := List.length_eq_three.mp h
        exact htriple ⟨a, b, c, by rw [habc]⟩
      rw [encode, List.append_assoc]
      exact ⟨_, fromSlice_of_readHeader (readHeader_header _ _) hlength⟩
  | nil => exact hv.elim
  | boolean b => exact hv.elim
  | string bytes => exact hv.elim
  | map entries => exact hv.elim

theorem toInteger_ofInt (n : Int64) : toInteger (F64.ofInt n.toInt) = some n := by
  simp [toInteger, F64.ofInt]

theorem fromSlice_encode_triple (x : F64) (n : Int64) (xs : List F64) :
    fromSlice (encode (.array [.number x, .number (F64.ofInt n.toInt),
      .array (xs.map .number)])) = .ok (x, n, xs) := by
  have hbytes : encode (.array [.number x, .number (F64.ofInt n.toInt),
      .array (xs.map .number)]) = header 3 ++ (encodeAll ([x, F64.ofInt n.toInt].map .number) ++
        (header xs.length ++ (encodeAll (xs.map .number) ++ []))) := by
    simp [encode, encodeAll]
  have hpair := readNumbers_encodeAll [x, F64.ofInt n.toInt]
    (header xs.length ++ (encodeAll (xs.map .number) ++ []))
  rw [hbytes, fromSlice, readHeader_header]
  simp only [List.length_cons, List.length_nil, Nat.zero_add, Nat.reduceAdd] at hpair
  simp only [hpair, toInteger_ofInt, readHeader_header, readNumbers_encodeAll]

/-! ## Expiry -/

/-- A reading in whole microseconds. -/
def micros (time : RawTime) : ℕ := time.seconds * 1000000 + time.microseconds

theorem now_eq_micros (time : RawTime) : time.now = micros time / 1000000 := by
  rw [RawTime.now, micros]
  push_cast
  ring

def dropped (written : RawTime) (expire : ℕ) (now : RawTime) : Bool :=
  decide (micros written + expire * 1000000 ≤ micros now)

theorem now_of_dropped {written now : RawTime} {expire : ℕ}
    (h : dropped written expire now = true) : written.now + expire ≤ now.now := by
  have hmicros : micros written + expire * 1000000 ≤ micros now := of_decide_eq_true h
  have hcast : (micros written : ℚ) + expire * 1000000 ≤ micros now := by exact_mod_cast hmicros
  rw [now_eq_micros, now_eq_micros]
  linarith

end ReferenceHost

/-- The platform of this file. -/
def referenceHost : Platform where
  encode := ReferenceHost.encode
  unpack := ReferenceHost.unpack
  stringToNumber := fun _ => none
  fromSlice := ReferenceHost.fromSlice
  dropped := ReferenceHost.dropped
  unpack_encode := fun _ hvs => ReferenceHost.readAll_flatMap_encode hvs le_rfl
  fromSlice_other := fun _ rest hv htriple => ReferenceHost.fromSlice_encode_other rest hv htriple
  fromSlice_triple := ReferenceHost.fromSlice_encode_triple
  dropped_after := fun _ _ _ h => ReferenceHost.now_of_dropped h

end Limitr
