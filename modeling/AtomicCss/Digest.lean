/-!
# Digests of texts

A text is digested by hashing its UTF-8 bytes under a seed and writing the word in base 36. What is
digested (a property name, a value, an animation number) decides the seed.
-/

namespace AtomicCss.Digest.Base36

/-! ## Base 36

Words as numerals over `0-9a-z`, without leading zeros. A 32-bit word has at most seven digits,
since `2 ^ 32 < 36 ^ 7`.
-/

/- Powers are those of core, whatever other instances are in scope. -/
attribute [local instance (high)] instPowNat

/-- The digits of a number, highest first, as far as `places` reach. -/
def digits : (places : Nat) → Nat → List Nat
  | 0, _ => []
  | places + 1, n => if n < 36 then [n] else digits places (n / 36) ++ [n % 36]

def digitChar (d : Nat) : Char := if d < 10 then Char.ofNat (48 + d) else Char.ofNat (87 + d)

def render (w : UInt32) : String := String.ofList ((digits 7 w.toNat).map digitChar)

/-- The number that a list of digits, highest first, stands for. -/
def value (ds : List Nat) : Nat := ds.foldl (fun n d => n * 36 + d) 0

theorem value_append_singleton (ds : List Nat) (d : Nat) :
    value (ds ++ [d]) = value ds * 36 + d := by
  simp [value]

/-- Digits stand for the number they were taken from, if it has no more than `places`. -/
theorem value_digits {places n : Nat} (h : n < 36 ^ places) : value (digits places n) = n := by
  induction places generalizing n with
  | zero => simp_all [digits, value]
  | succ p ih =>
    rw [digits]
    split
    · simp [value]
    · have hp : n / 36 < 36 ^ p :=
        Nat.div_lt_of_lt_mul (by rwa [Nat.pow_succ, Nat.mul_comm] at h)
      rw [value_append_singleton, ih hp]
      omega

end AtomicCss.Digest.Base36

namespace AtomicCss.Digest.Xxh32

/-! ## XXH32

The 32-bit xxHash of a list of bytes under a seed. The input is read as little-endian words; whole
groups of four words feed four accumulators, the words and bytes left over are folded in singly, and
a last mixing spreads every bit over the word.
-/

/-- The five multipliers of the algorithm. -/
def prime1 : UInt32 := 2654435761
def prime2 : UInt32 := 2246822519
def prime3 : UInt32 := 3266489917
def prime4 : UInt32 := 668265263
def prime5 : UInt32 := 374761393

/-- Rotation to the left by `k` bits, `0 < k < 32`. -/
def rotate (x k : UInt32) : UInt32 := (x <<< k) ||| (x >>> (32 - k))

/-- Four bytes as a word, the first byte lowest. -/
def word (a b c d : UInt8) : UInt32 :=
  a.toUInt32 ||| (b.toUInt32 <<< 8) ||| (c.toUInt32 <<< 16) ||| (d.toUInt32 <<< 24)

/-- The whole words of a byte list, and the at most three bytes behind them. -/
def words : List UInt8 → List UInt32 × List UInt8
  | a :: b :: c :: d :: rest => (word a b c d :: (words rest).1, (words rest).2)
  | tail => ([], tail)

/-- The four accumulators. -/
structure Lanes where
  a : UInt32
  b : UInt32
  c : UInt32
  d : UInt32

def Lanes.start (seed : UInt32) : Lanes :=
  ⟨seed + prime1 + prime2, seed + prime2, seed, seed - prime1⟩

/-- One accumulator takes in a word. -/
def absorb (acc w : UInt32) : UInt32 := rotate (acc + w * prime2) 13 * prime1

/-- The accumulators after all whole groups, and the at most three words behind them. -/
def Lanes.run (l : Lanes) : List UInt32 → Lanes × List UInt32
  | a :: b :: c :: d :: rest =>
    Lanes.run ⟨absorb l.a a, absorb l.b b, absorb l.c c, absorb l.d d⟩ rest
  | tail => (l, tail)

def Lanes.merge (l : Lanes) : UInt32 :=
  rotate l.a 1 + rotate l.b 7 + rotate l.c 12 + rotate l.d 18

/-- Folds in a word behind the last group. -/
def absorbWord (h w : UInt32) : UInt32 := rotate (h + w * prime3) 17 * prime4

/-- Folds in a byte behind the last word. -/
def absorbByte (h : UInt32) (b : UInt8) : UInt32 := rotate (h + b.toUInt32 * prime5) 11 * prime1

/-- Spreads every bit over the word. -/
def mix (h : UInt32) : UInt32 :=
  let h := (h ^^^ (h >>> 15)) * prime2
  let h := (h ^^^ (h >>> 13)) * prime3
  h ^^^ (h >>> 16)

/-- The hash of a byte list under a seed; an input shorter than one group uses no accumulator. -/
def hash (bytes : List UInt8) (seed : UInt32) : UInt32 :=
  let (ws, tail) := words bytes
  let (lanes, rest) := (Lanes.start seed).run ws
  let h := if bytes.length < 16 then seed + prime5 else lanes.merge
  let h := h + UInt32.ofNat bytes.length
  mix (tail.foldl absorbByte (rest.foldl absorbWord h))

end AtomicCss.Digest.Xxh32

namespace AtomicCss.Digest

/-! ## Digests of texts

A text is digested by hashing its UTF-8 bytes under a seed and writing the word in base 36. What is
digested (a property name, a value, an animation number) decides the seed.
-/

/-- What a digest is taken of. -/
inductive Purpose
  | property
  | value
  | animation
deriving DecidableEq

/-- Each purpose has a seed of its own. -/
def Purpose.seed : Purpose → UInt32
  | .property => 12345
  | .value => 54321
  | .animation => 57482

/-- The 32-bit hash of a text. -/
def word (text : String) (seed : UInt32) : UInt32 := Xxh32.hash text.toUTF8.data.toList seed

def digest (text : String) (seed : UInt32) : String := Base36.render (word text seed)

def Purpose.digest (purpose : Purpose) (text : String) : String := Digest.digest text purpose.seed

end AtomicCss.Digest
