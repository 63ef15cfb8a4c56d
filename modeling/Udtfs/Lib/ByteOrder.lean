import Mathlib.Tactic.Common

/-!
# Words in memory

Words of 32 bits as a machine of either byte order keeps them in memory, and their conversion between the order of
the machine and that of the network. What one machine converts for the network, any other machine reads back.
-/

/-- The order of the bytes of a word in memory. -/
inductive ByteOrder
  | little
  | big
  deriving DecidableEq

namespace ByteOrder

/-- A byte of a word, counted from the least significant. -/
def byteOf (w : BitVec 32) (k : ℕ) : UInt8 := ⟨w.extractLsb' (8 * k) 8⟩

/-- The word of four bytes, the most significant first. -/
def wordOf (a b c d : UInt8) : BitVec 32 := a.toBitVec ++ b.toBitVec ++ c.toBitVec ++ d.toBitVec

/-- The bytes of a word in memory. -/
def store : ByteOrder → BitVec 32 → List UInt8
  | big, w => [byteOf w 3, byteOf w 2, byteOf w 1, byteOf w 0]
  | little, w => [byteOf w 0, byteOf w 1, byteOf w 2, byteOf w 3]

/-- The word that four bytes in memory are. -/
def load : ByteOrder → UInt8 → UInt8 → UInt8 → UInt8 → BitVec 32
  | big, a, b, c, d => wordOf a b c d
  | little, a, b, c, d => wordOf d c b a

/-- `htonl`, and `ntohl`. -/
def htonl : ByteOrder → BitVec 32 → BitVec 32
  | big, w => w
  | little, w => wordOf (byteOf w 0) (byteOf w 1) (byteOf w 2) (byteOf w 3)

/-- The whole words in a piece of memory. -/
def words (o : ByteOrder) : List UInt8 → List (BitVec 32)
  | a :: b :: c :: d :: rest => o.load a b c d :: o.words rest
  | _ => []

/-- The memory that holds some words. -/
def storeAll (o : ByteOrder) (ws : List (BitVec 32)) : List UInt8 := ws.flatMap o.store

/-- Apply a function to each whole word in a piece of memory. -/
def convert (o : ByteOrder) (f : BitVec 32 → BitVec 32) : List UInt8 → List UInt8
  | a :: b :: c :: d :: rest => o.store (f (o.load a b c d)) ++ o.convert f rest
  | rest => rest

/-- A word is put together from its bytes. -/
theorem wordOf_byteOf (w : BitVec 32) : wordOf (byteOf w 3) (byteOf w 2) (byteOf w 1) (byteOf w 0) = w := by
  change w.extractLsb' 24 8 ++ w.extractLsb' 16 8 ++ w.extractLsb' 8 8 ++ w.extractLsb' 0 8 = w
  rw [BitVec.extractLsb'_append_extractLsb'_eq_extractLsb' (show 24 = 16 + 8 from rfl),
    BitVec.extractLsb'_append_extractLsb'_eq_extractLsb' (show 16 = 8 + 8 from rfl),
    BitVec.extractLsb'_append_extractLsb'_eq_extractLsb' (show 8 = 0 + 8 from rfl)]
  exact BitVec.extractLsb'_eq_self

section
variable (a b c d : UInt8)

/-- The last byte of a word. -/
@[simp] theorem byteOf_wordOf_zero : byteOf (wordOf a b c d) 0 = d := by
  apply UInt8.toBitVec_inj.mp
  simp only [wordOf, byteOf]
  rw [BitVec.extractLsb'_append_eq_of_add_le (by decide)]
  exact BitVec.extractLsb'_eq_self

/-- The byte before the last. -/
@[simp] theorem byteOf_wordOf_one : byteOf (wordOf a b c d) 1 = c := by
  apply UInt8.toBitVec_inj.mp
  simp only [wordOf, byteOf]
  rw [BitVec.extractLsb'_append_eq_of_le (by decide), BitVec.extractLsb'_append_eq_of_add_le (by decide)]
  exact BitVec.extractLsb'_eq_self

/-- The second byte of a word. -/
@[simp] theorem byteOf_wordOf_two : byteOf (wordOf a b c d) 2 = b := by
  apply UInt8.toBitVec_inj.mp
  simp only [wordOf, byteOf]
  rw [BitVec.extractLsb'_append_eq_of_le (by decide), BitVec.extractLsb'_append_eq_of_le (by decide),
    BitVec.extractLsb'_append_eq_of_add_le (by decide)]
  exact BitVec.extractLsb'_eq_self

/-- The first byte of a word. -/
@[simp] theorem byteOf_wordOf_three : byteOf (wordOf a b c d) 3 = a := by
  apply UInt8.toBitVec_inj.mp
  simp only [wordOf, byteOf]
  rw [BitVec.extractLsb'_append_eq_of_le (by decide), BitVec.extractLsb'_append_eq_of_le (by decide),
    BitVec.extractLsb'_append_eq_of_le (by decide)]
  exact BitVec.extractLsb'_eq_self

/-- The conversion is its own inverse. -/
@[simp] theorem htonl_htonl (o : ByteOrder) (w : BitVec 32) : o.htonl (o.htonl w) = w := by
  cases o with
  | little => simp [htonl, wordOf_byteOf]
  | big => rfl

/-- What is converted is in memory as the network has it. -/
theorem store_htonl (o : ByteOrder) (w : BitVec 32) : o.store (o.htonl w) = big.store w := by
  cases o with
  | little => simp [store, htonl]
  | big => rfl

/-- What the network has is read as it is, and converted. -/
theorem htonl_load (o : ByteOrder) : o.htonl (o.load a b c d) = big.load a b c d := by
  cases o with
  | little => simp [load, htonl]
  | big => rfl

/-- Four bytes that were read as a word are stored as they were. -/
theorem store_load (o : ByteOrder) : o.store (o.load a b c d) = [a, b, c, d] := by
  cases o <;> simp [load, store]

end

/-- A word in memory, followed by others. -/
theorem words_store (o : ByteOrder) (w : BitVec 32) (rest : List UInt8) : o.words (o.store w ++ rest) = w :: o.words rest := by
  cases o <;> simp [store, words, load, wordOf_byteOf]

/-- The first word is converted, then the others. -/
theorem convert_store (o : ByteOrder) (f : BitVec 32 → BitVec 32) (w : BitVec 32) (rest : List UInt8) :
    o.convert f (o.store w ++ rest) = o.store (f w) ++ o.convert f rest := by
  cases o <;> simp [store, convert, load, wordOf_byteOf]

/-- A word takes four bytes. -/
@[simp] theorem store_length (o : ByteOrder) (w : BitVec 32) : (o.store w).length = 4 := by
  cases o <;> rfl

variable (o : ByteOrder)

/-- Words that were stored are read back. -/
theorem words_storeAll (ws : List (BitVec 32)) : o.words (o.storeAll ws) = ws := by
  induction ws with
  | nil => rfl
  | cons w ws ih => rw [storeAll, List.flatMap_cons, words_store, ← storeAll, ih]

/-- Each word takes four bytes. -/
@[simp] theorem storeAll_length (ws : List (BitVec 32)) : (o.storeAll ws).length = 4 * ws.length := by
  induction ws with
  | nil => rfl
  | cons w ws ih =>
    rw [storeAll, List.flatMap_cons, List.length_append, ← storeAll, ih, store_length, List.length_cons]
    omega

/-- A conversion keeps the length. -/
theorem convert_length (f : BitVec 32 → BitVec 32) (bytes : List UInt8) : (o.convert f bytes).length = bytes.length := by
  fun_induction convert o f bytes with
  | case1 a b c d rest ih =>
    rw [List.length_append, ih, store_length]
    simp only [List.length_cons]
    omega
  | case2 => rfl

/-- Converting back restores the memory. -/
theorem convert_convert (bytes : List UInt8) : o.convert o.htonl (o.convert o.htonl bytes) = bytes := by
  fun_induction convert o o.htonl bytes with
  | case1 a b c d rest ih => rw [convert_store, htonl_htonl, store_load, ih]; rfl
  | case2 bytes h => rw [convert]; exact h

/-- What any machine has converted for the network is the same piece of bytes for all of them. -/
theorem storeAll_htonl (ws : List (BitVec 32)) : o.storeAll (ws.map o.htonl) = big.storeAll ws := by
  simp [storeAll, List.flatMap_map, store_htonl]

/-- The words of such a piece. -/
theorem words_storeAll_big (ws : List (BitVec 32)) : o.words (big.storeAll ws) = ws.map o.htonl := by
  rw [← storeAll_htonl o, words_storeAll]

/-- What was converted is read as the network's words. -/
theorem words_convert (bytes : List UInt8) : o.words (o.convert o.htonl bytes) = big.words bytes := by
  fun_induction convert o o.htonl bytes with
  | case1 a b c d rest ih => rw [words_store, htonl_load, ih]; rfl
  | case2 bytes h => rw [words, words] <;> exact h

/-- What one machine sends, any other reads as the same words. -/
theorem words_convert_convert (o' : ByteOrder) (bytes : List UInt8) :
    o'.words (o'.convert o'.htonl (o.convert o.htonl bytes)) = o.words bytes := by
  rw [words_convert, ← words_convert o, convert_convert]

end ByteOrder
