import StochasticGrammar.Binary64.Arithmetic

namespace StochasticGrammar

/-- A source gives a draw and the source that gives the later ones. -/
class RandomSource (σ : Type) where
  draw : σ → Binary64 × σ

/-- Prescribed draws, which start again at the first when all have been given. -/
structure Script where
  draws : Array Binary64
  made : Nat
deriving DecidableEq

namespace Script

def ofList (draws : List Binary64) : Script := ⟨draws.toArray, 0⟩

def next (script : Script) : Binary64 :=
  script.draws.getD (script.made % script.draws.size) 0

instance : RandomSource Script where
  draw script := (script.next, { script with made := script.made + 1 })

end Script

/-- The Mersenne Twister with 19937 bits of state: its words, and the position of the next word to
be used. -/
structure Twister where
  words : Array UInt32
  position : Nat

namespace Twister

def size : Nat := 624

/-- The distance of the word that is mixed into the one being renewed. -/
def shift : Nat := 397

def word (words : Array UInt32) (i : Nat) : UInt32 := words.getD i 0

/-- The words of a number, the least significant first, at least one. -/
def keyOf (seed : Nat) : List UInt32 :=
  if seed < 0x100000000 then [UInt32.ofNat seed]
  else UInt32.ofNat seed :: keyOf (seed / 0x100000000)
termination_by seed

def fillFrom : Nat → Array UInt32 → Array UInt32
  | 0, words => words
  | count + 1, words =>
    let last := word words (words.size - 1)
    fillFrom count
      (words.push ((last ^^^ (last >>> 30)) * 1812433253 + UInt32.ofNat words.size))

def basis : Array UInt32 := fillFrom (size - 1) #[19650218]

/-- Replaces the word at a position; after the last position the last word is copied to the first
and the next position is one. -/
def store (words : Array UInt32) (i : Nat) (value : UInt32) : Array UInt32 × Nat :=
  let words := words.setIfInBounds i value
  if size ≤ i + 1 then (words.setIfInBounds 0 value, 1) else (words, i + 1)

/-- Mixes the words of a key into the state, starting again at the first when all are used. -/
def absorb (key : Array UInt32) : Nat → Array UInt32 → Nat → Nat → Array UInt32 × Nat
  | 0, words, i, _ => (words, i)
  | count + 1, words, i, j =>
    let previous := word words (i - 1)
    let mixed := word words i ^^^ ((previous ^^^ (previous >>> 30)) * 1664525)
    let (words, i) := store words i (mixed + key.getD j 0 + UInt32.ofNat j)
    absorb key count words i (if key.size ≤ j + 1 then 0 else j + 1)

def spread : Nat → Array UInt32 → Nat → Array UInt32
  | 0, words, _ => words
  | count + 1, words, i =>
    let previous := word words (i - 1)
    let mixed := word words i ^^^ ((previous ^^^ (previous >>> 30)) * 1566083941)
    let (words, next) := store words i (mixed - UInt32.ofNat i)
    spread count words next

/-- The twister of a seed; the sign of the seed does not matter. -/
def ofSeed (seed : Int) : Twister :=
  let key := (keyOf seed.natAbs).toArray
  let (words, i) := absorb key (max size key.size) basis 1 0
  ⟨(spread (size - 1) words i).setIfInBounds 0 0x80000000, size⟩

/-- The twister of a seed, or a given one if there is no seed. -/
def seeded (seed : Option Int) (entropy : Twister) : Twister := seed.elim entropy ofSeed

def twist (current next distant : UInt32) : UInt32 :=
  let joined := (current &&& 0x80000000) ||| (next &&& 0x7fffffff)
  distant ^^^ (joined >>> 1) ^^^ (if joined &&& 1 = 0 then 0 else 0x9908b0df)

def renewFrom : Nat → Array UInt32 → Nat → Array UInt32
  | 0, words, _ => words
  | count + 1, words, i =>
    let renewed := twist (word words i) (word words ((i + 1) % size))
      (word words ((i + shift) % size))
    renewFrom count (words.setIfInBounds i renewed) (i + 1)

def temper (value : UInt32) : UInt32 :=
  let value := value ^^^ (value >>> 11)
  let value := value ^^^ ((value <<< 7) &&& 0x9d2c5680)
  let value := value ^^^ ((value <<< 15) &&& 0xefc60000)
  value ^^^ (value >>> 18)

/-- The next output of 32 bits; the state is renewed when all its words are used. -/
def next (twister : Twister) : UInt32 × Twister :=
  let ready :=
    if twister.position < size then twister else ⟨renewFrom size twister.words 0, 0⟩
  (temper (word ready.words ready.position), { ready with position := ready.position + 1 })

/-- A number below one from two outputs: 27 bits of the first and 26 of the second. -/
def draw (twister : Twister) : Binary64 × Twister :=
  let (first, twister) := twister.next
  let (second, twister) := twister.next
  let bits := (first >>> 5).toNat * twoPow 26 + (second >>> 6).toNat
  (.ofRatio false (bits * stepsPerOne) (twoPow 53), twister)

instance : RandomSource Twister := ⟨draw⟩

end Twister

end StochasticGrammar
