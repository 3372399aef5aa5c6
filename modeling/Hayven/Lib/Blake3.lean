import Hayven.Lib.Bytes
/-!
# BLAKE3

The hash with its 32-byte output, without a key. Words are numbers below 2^32. An
input is cut into chunks of 1024 bytes and these into blocks of 64; chunks are the
leaves of a binary tree whose left subtrees are complete.
-/

namespace Hayven.Lib.Blake3

def initialWords : List Nat :=
  [0x6A09E667, 0xBB67AE85, 0x3C6EF372, 0xA54FF53A, 0x510E527F, 0x9B05688C, 0x1F83D9AB, 0x5BE0CD19]

def chunkStart : Nat := 1
def chunkEnd : Nat := 2
def parent : Nat := 4
def root : Nat := 8

def add (a b : Nat) : Nat := (a + b) % 2 ^ 32

def rotateRight (a n : Nat) : Nat := a >>> n ||| a <<< (32 - n) % 2 ^ 32

/-- One quarter of half a round. -/
def mix (v : List Nat) (i j k l x y : Nat) : List Nat :=
  let a := add (add (v.getD i 0) (v.getD j 0)) x
  let d := rotateRight (v.getD l 0 ^^^ a) 16
  let c := add (v.getD k 0) d
  let b := rotateRight (v.getD j 0 ^^^ c) 12
  let a := add (add a b) y
  let d := rotateRight (d ^^^ a) 8
  let c := add c d
  let b := rotateRight (b ^^^ c) 7
  (((v.set i a).set j b).set k c).set l d

/-- Columns, then diagonals. -/
def lanes : List (Nat × Nat × Nat × Nat) :=
  [(0, 4, 8, 12), (1, 5, 9, 13), (2, 6, 10, 14), (3, 7, 11, 15),
    (0, 5, 10, 15), (1, 6, 11, 12), (2, 7, 8, 13), (3, 4, 9, 14)]

def mixLanes : List (Nat × Nat × Nat × Nat) → List Nat → List Nat → List Nat
  | (i, j, k, l) :: rest, x :: y :: m, v => mixLanes rest m (mix v i j k l x y)
  | _, _, v => v

def permutation : List Nat := [2, 6, 3, 10, 7, 0, 4, 13, 1, 11, 12, 5, 9, 14, 15, 8]

def rounds : Nat → List Nat → List Nat → List Nat
  | 0, _, v => v
  | n + 1, m, v => rounds n (permutation.map fun i => m.getD i 0) (mixLanes lanes m v)

/-- The first eight words of the output. -/
def compress (chaining block : List Nat) (counter length flags : Nat) : List Nat :=
  let v := rounds 7 block (chaining ++ initialWords.take 4 ++ [counter % 2 ^ 32, counter / 2 ^ 32, length, flags])
  List.zipWith (· ^^^ ·) (v.take 8) (v.drop 8)

def ofLe (bs : Bytes) : Nat := ofBe bs.reverse

/-- The words of a block, padded with zeros. -/
def blockWords (block : Bytes) : List Nat := (List.range 16).map fun i => ofLe ((block.drop (4 * i)).take 4)

/-- The blocks of a chunk, from the chaining value before them; `flags` marks the first one. -/
def chunkBlocks (counter last : Nat) : Nat → Nat → List Nat → Bytes → List Nat
  | fuel + 1, flags, chaining, bytes =>
    if bytes.length ≤ 64 then compress chaining (blockWords bytes) counter bytes.length (flags ||| chunkEnd ||| last)
    else chunkBlocks counter last fuel 0 (compress chaining (blockWords (bytes.take 64)) counter 64 flags)
      (bytes.drop 64)
  | 0, _, chaining, _ => chaining

/-- The bytes in the left subtree: the largest power of two of chunks that leaves some. -/
def leftBytes (length : Nat) : Nat := 1024 * 2 ^ ((length - 1) / 1024).log2

/-- The chaining value of a subtree whose first chunk is number `counter`. -/
def subtree : Nat → Nat → Nat → Bytes → List Nat
  | fuel + 1, counter, last, bytes =>
    if bytes.length ≤ 1024 then chunkBlocks counter last 16 chunkStart initialWords bytes
    else
      let n := leftBytes bytes.length
      compress initialWords (subtree fuel counter 0 (bytes.take n) ++
        subtree fuel (counter + n / 1024) 0 (bytes.drop n)) 0 64 (parent ||| last)
  | 0, _, _, _ => []

def wordBytes (w : Nat) : Bytes := (beBytes 4 w).reverse

/-- The hash of a byte string. -/
def hash (bytes : Bytes) : Bytes := (subtree (bytes.length + 1) 0 root bytes).flatMap wordBytes

/-- The hash of `abc`. -/
example : bytesToHex (hash [0x61, 0x62, 0x63]) =
    ascii "6437b3ac38465133ffb63b75273a8db548c558465d79db03fd359c6cd5bd9d85" := by
  decide +kernel

/-! ## The length of a hash -/

theorem length_mix (v : List Nat) (i j k l x y : Nat) : (mix v i j k l x y).length = v.length := by
  simp [mix]

theorem length_mixLanes (ls : List (Nat × Nat × Nat × Nat)) (m v : List Nat) :
    (mixLanes ls m v).length = v.length := by
  fun_induction mixLanes ls m v with
  | case1 i j k l rest x y m v ih => rw [ih, length_mix]
  | case2 => rfl

theorem length_rounds (n : Nat) (m v : List Nat) : (rounds n m v).length = v.length := by
  induction n generalizing m v with
  | zero => rfl
  | succ n ih => rw [rounds, ih, length_mixLanes]

theorem length_compress {chaining : List Nat} (h : chaining.length = 8) (block : List Nat)
    (counter length flags : Nat) : (compress chaining block counter length flags).length = 8 := by
  simp [compress, length_rounds, h, initialWords]

theorem length_chunkBlocks (counter last fuel flags : Nat) {chaining : List Nat} (h : chaining.length = 8)
    (bytes : Bytes) : (chunkBlocks counter last fuel flags chaining bytes).length = 8 := by
  induction fuel generalizing flags chaining bytes with
  | zero => exact h
  | succ fuel ih =>
    rw [chunkBlocks]
    split
    · exact length_compress h _ _ _ _
    · exact ih 0 (length_compress h _ _ _ _) _

theorem length_subtree (fuel counter last : Nat) (bytes : Bytes) :
    (subtree (fuel + 1) counter last bytes).length = 8 := by
  rw [subtree]
  split
  · exact length_chunkBlocks counter last 16 chunkStart rfl bytes
  · exact length_compress rfl _ _ _ _

/-- A hash is 32 bytes. -/
theorem length_hash (bytes : Bytes) : (hash bytes).length = 32 := by
  have hword : (fun w => (wordBytes w).length) = fun _ => 4 := by
    funext w
    simp [wordBytes]
  rw [hash, List.length_flatMap, hword]
  simp [length_subtree]

end Hayven.Lib.Blake3
