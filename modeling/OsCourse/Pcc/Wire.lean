import Mathlib

/-! # Bytes, words and strings of the counting server

A 32-bit object has four bytes, in the host's order; the wire has them in big-endian
order. A `recv` writes the bytes that came over what the buffer held before.
-/

namespace OsCourse.Pcc

abbrev Byte := BitVec 8

inductive ByteOrder where
  | little
  | big
  deriving DecidableEq, Repr

/-- The four bytes of a 32-bit object, by address. -/
abbrev Word := Fin 4 → Byte

def load (o : ByteOrder) (w : Word) : BitVec 32 :=
  match o with
  | .big => w 0 ++ w 1 ++ w 2 ++ w 3
  | .little => w 3 ++ w 2 ++ w 1 ++ w 0

def store (o : ByteOrder) (v : BitVec 32) : Word :=
  match o with
  | .big => ![v.extractLsb' 24 8, v.extractLsb' 16 8, v.extractLsb' 8 8, v.extractLsb' 0 8]
  | .little => ![v.extractLsb' 0 8, v.extractLsb' 8 8, v.extractLsb' 16 8, v.extractLsb' 24 8]

def ntohl (o : ByteOrder) (v : BitVec 32) : BitVec 32 :=
  match o with
  | .big => v
  | .little => load .big (store .little v)

theorem load_store (o : ByteOrder) (v : BitVec 32) : load o (store o v) = v := by
  apply BitVec.eq_of_getElem_eq
  intro i hi
  cases o with
  | big => simp [load, store]; grind
  | little => simp [load, store]; grind

theorem store_load (o : ByteOrder) (w : Word) : store o (load o w) = w := by
  funext k
  apply BitVec.eq_of_getElem_eq
  intro i hi
  cases o with
  | big => fin_cases k <;> simp [load, store] <;> grind
  | little => fin_cases k <;> simp [load, store] <;> grind

/-- `ntohl` undoes the host's byte order: what is read is the big-endian value. -/
theorem ntohl_load (o : ByteOrder) (w : Word) : ntohl o (load o w) = load .big w := by
  cases o with
  | big => rfl
  | little => rw [ntohl, store_load]

/-- A `recv` into a 32-bit object. -/
def received (bytes : List Byte) (memory : Word) : Word := fun k => bytes.getD k (memory k)

theorem received_ofFn (w stale : Word) : received (List.ofFn w) stale = w := by
  funext k
  fin_cases k <;> rfl

theorem received_of_length {bytes : List Byte} (h : bytes.length = 4) (m m' : Word) :
    received bytes m = received bytes m' := by
  funext k
  have hk : (k : ℕ) < bytes.length := by omega
  simp [received, List.getD_eq_getElem?_getD, List.getElem?_eq_getElem hk]

/-- The string that starts at the beginning of `memory`, without its terminator. -/
def cString (memory : List Byte) : List Byte := memory.takeWhile (· ≠ 0#8)

/-- Memory behind what was written can only make a string longer. -/
theorem take_cString_append (l r : List Byte) : (cString (l ++ r)).take l.length = cString l := by
  induction l with
  | nil => rfl
  | cons c l ih =>
    by_cases hc : c = 0#8
    · simp [cString, hc]
    · simpa [cString, hc] using ih

end OsCourse.Pcc
