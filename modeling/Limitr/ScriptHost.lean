import Limitr.ExactDouble

/-!
# What the script runs on: Lua values, MessagePack, Redis

The script of the limiter runs inside Redis.  This file gives it the Lua
values it can meet with the operations it applies to them, the slot Redis
keeps for one key, and the commands it issues: `TIME`, `GET` and `SETEX`.

The libraries that are not part of the repository are collected in a
`Platform`: the MessagePack encoder and decoder of Redis, the decoder on the
Rust side, the C conversion of strings to numbers, and the moment at which
Redis drops a key.  Its laws say of them only what they document: what one
call packs is unpacked again, the Rust decoder wants one array of three, and
no key is dropped before its expiry time has passed.
-/

namespace Limitr

/-- A Lua value, as MessagePack can hold one. -/
inductive LuaValue where
  | nil
  | boolean (b : Bool)
  | number (x : F64)
  | string (bytes : List UInt8)
  | array (elements : List LuaValue)
  | map (entries : List (LuaValue × LuaValue))

/-- The errors the script can raise. -/
inductive LuaError where
  | arithmetic (type : String)
  | index (type : String)
  | invalidExpire
  deriving DecidableEq, Repr

namespace LuaValue

def typeName : LuaValue → String
  | nil => "nil"
  | boolean _ => "boolean"
  | number _ => "number"
  | string _ => "string"
  | array _ => "table"
  | map _ => "table"

/-- `v or 0` -/
def orZero : LuaValue → LuaValue
  | nil => number 0
  | boolean false => number 0
  | v => v

/-- Is the value the number `i`? -/
def isIndex (i : ℕ) : LuaValue → Bool
  | number x => decide (x = F64.fin i)
  | _ => false

/-- `v[i]` for a positive integer `i`.  Indexing a string finds no method of
that name; indexing anything but a table or a string is an error. -/
def index (v : LuaValue) (i : ℕ) : Except LuaError LuaValue :=
  match v with
  | array elements => .ok (elements.getD (i - 1) nil)
  | map entries =>
      .ok (((entries.reverse.find? (fun entry => isIndex i entry.1)).map Prod.snd).getD nil)
  | string _ => .ok nil
  | v => .error (.index v.typeName)

/-- A number, or an array of numbers: what the script itself stores. -/
def Packable : LuaValue → Prop
  | number _ => True
  | array elements => ∀ v ∈ elements, ∃ x, v = number x
  | _ => False

/-- An array of three elements. -/
def IsTriple (v : LuaValue) : Prop := ∃ a b c, v = array [a, b, c]

end LuaValue

/-- The reply of `TIME`: seconds and microseconds. -/
structure RawTime where
  seconds : ℕ
  microseconds : ℕ
  micros_lt : microseconds < 1000000

/-- The reading at the start of a second. -/
def RawTime.ofSeconds (seconds : ℕ) : RawTime := ⟨seconds, 0, by decide⟩

/-- The reading as one number of seconds. -/
def RawTime.now (t : RawTime) : ℚ := t.seconds + t.microseconds / 1000000

/-- The reading in whole milliseconds, as Redis keeps expiry times. -/
def RawTime.millis (t : RawTime) : ℤ := t.seconds * 1000 + t.microseconds / 1000

theorem RawTime.now_nonneg (t : RawTime) : 0 ≤ t.now :=
  add_nonneg (Nat.cast_nonneg _) (div_nonneg (Nat.cast_nonneg _) (by norm_num))

/-- What is stored under a key: a string, or a value of another Redis type. -/
inductive StoredValue where
  | string (bytes : List UInt8)
  | other

/-- A stored value with the time it was written and its time to live. -/
structure Entry where
  value : StoredValue
  writtenAt : RawTime
  expireSeconds : ℕ

/-- What Redis holds under one key. -/
abbrev Slot := Option Entry

/-- The libraries the service calls. -/
structure Platform where
  /-- The MessagePack encoding of one value by `cmsgpack.pack`. -/
  encode : LuaValue → List UInt8
  /-- The values `cmsgpack.unpack` returns; `none` when it raises. -/
  unpack : List UInt8 → Option (List LuaValue)
  /-- The number a string converts to in Lua arithmetic. -/
  stringToNumber : List UInt8 → Option F64
  /-- `rmp_serde::from_slice` into `(f64, i64, Vec<f64>)`, or the text of its error. -/
  fromSlice : List UInt8 → Except String (F64 × Int64 × List F64)
  /-- Has a key written at one time with a time to live been dropped? -/
  dropped : RawTime → ℕ → RawTime → Bool
  unpack_encode : ∀ vs : List LuaValue, (∀ v ∈ vs, v.Packable) →
    unpack (vs.flatMap encode) = some vs
  fromSlice_other : ∀ (v : LuaValue) (rest : List UInt8), v.Packable → ¬v.IsTriple →
    ∃ e, fromSlice (encode v ++ rest) = .error e
  fromSlice_triple : ∀ (x : F64) (n : Int64) (xs : List F64),
    fromSlice (encode (.array [.number x, .number (F64.ofInt n.toInt),
      .array (xs.map .number)])) = .ok (x, n, xs)
  dropped_after : ∀ written expire now, dropped written expire now = true →
    written.now + expire ≤ now.now

namespace Platform

variable (p : Platform)

/-- `cmsgpack.pack` of several arguments: their encodings one after another. -/
def pack (values : List LuaValue) : List UInt8 := values.flatMap p.encode

/-- The slot once Redis has dropped what has expired. -/
def expire (slot : Slot) (now : RawTime) : Slot :=
  match slot with
  | none => none
  | some entry => if p.dropped entry.writtenAt entry.expireSeconds now then none else some entry

@[simp] theorem expire_none (now : RawTime) : p.expire none now = none := rfl

/-- The number a value is in Lua arithmetic. -/
def toNumber (v : LuaValue) : Except LuaError F64 :=
  match v with
  | .number x => .ok x
  | .string bytes =>
      match p.stringToNumber bytes with
      | some x => .ok x
      | none => .error (.arithmetic v.typeName)
  | v => .error (.arithmetic v.typeName)

@[simp] theorem toNumber_number (x : F64) : p.toNumber (.number x) = .ok x := rfl

end Platform

/-- The largest signed 64-bit integer. -/
def maxI64 : ℤ := 2 ^ 63 - 1

/-- The time to live `SETEX` accepts: a whole number of seconds, at least one,
that ends before the milliseconds overflow. -/
def setexSeconds (now : RawTime) : F64 → Except LuaError ℕ
  | F64.fin e =>
      if e.den = 1 ∧ 1 ≤ e.num ∧ e.num * 1000 + now.millis ≤ maxI64 then .ok e.num.toNat
      else .error .invalidExpire
  | _ => .error .invalidExpire

theorem setexSeconds_int (now : RawTime) (e : ℤ) :
    setexSeconds now (F64.fin e) =
      if 1 ≤ e ∧ e * 1000 + now.millis ≤ maxI64 then .ok e.toNat
      else .error .invalidExpire := by
  simp [setexSeconds]

end Limitr
