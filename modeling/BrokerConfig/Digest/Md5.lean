namespace BrokerConfig.Digest.Md5

structure State where
  a : UInt32
  b : UInt32
  c : UInt32
  d : UInt32
  deriving DecidableEq

def start : State := ⟨0x67452301, 0xefcdab89, 0x98badcfe, 0x10325476⟩

/-- The integer parts of `2 ^ 32 * |sin i|` for `i` from 1 to 64. -/
def sines : List UInt32 :=
  [0xd76aa478, 0xe8c7b756, 0x242070db, 0xc1bdceee, 0xf57c0faf, 0x4787c62a, 0xa8304613, 0xfd469501,
    0x698098d8, 0x8b44f7af, 0xffff5bb1, 0x895cd7be, 0x6b901122, 0xfd987193, 0xa679438e, 0x49b40821,
    0xf61e2562, 0xc040b340, 0x265e5a51, 0xe9b6c7aa, 0xd62f105d, 0x02441453, 0xd8a1e681, 0xe7d3fbc8,
    0x21e1cde6, 0xc33707d6, 0xf4d50d87, 0x455a14ed, 0xa9e3e905, 0xfcefa3f8, 0x676f02d9, 0x8d2a4c8a,
    0xfffa3942, 0x8771f681, 0x6d9d6122, 0xfde5380c, 0xa4beea44, 0x4bdecfa9, 0xf6bb4b60, 0xbebfbc70,
    0x289b7ec6, 0xeaa127fa, 0xd4ef3085, 0x04881d05, 0xd9d4d039, 0xe6db99e5, 0x1fa27cf8, 0xc4ac5665,
    0xf4292244, 0x432aff97, 0xab9423a7, 0xfc93a039, 0x655b59c3, 0x8f0ccc92, 0xffeff47d, 0x85845dd1,
    0x6fa87e4f, 0xfe2ce6e0, 0xa3014314, 0x4e0811a1, 0xf7537e82, 0xbd3af235, 0x2ad7d2bb, 0xeb86d391]

def rotations : List (List UInt32) :=
  [[7, 12, 17, 22], [5, 9, 14, 20], [4, 11, 16, 23], [6, 10, 15, 21]]

def rotate (x n : UInt32) : UInt32 := (x <<< n) ||| (x >>> (32 - n))

def mix (round : Nat) (b c d : UInt32) : UInt32 :=
  match round with
  | 0 => (b &&& c) ||| (~~~b &&& d)
  | 1 => (d &&& b) ||| (~~~d &&& c)
  | 2 => b ^^^ c ^^^ d
  | _ => c ^^^ (b ||| ~~~d)

def wordIndex (round step : Nat) : Nat :=
  match round with
  | 0 => step % 16
  | 1 => (5 * step + 1) % 16
  | 2 => (3 * step + 5) % 16
  | _ => (7 * step) % 16

def stir (block : List UInt32) (s : State) (entry : Nat × UInt32) : State :=
  let (step, sine) := entry
  let round := step / 16
  let turn := ((rotations.getD round []).getD (step % 4) 0)
  let sum := s.a + mix round s.b s.c s.d + sine + block.getD (wordIndex round step) 0
  ⟨s.d, s.b + rotate sum turn, s.b, s.c⟩

def absorb (s : State) (block : List UInt32) : State :=
  let t := ((List.range 64).zip sines).foldl (stir block) s
  ⟨s.a + t.a, s.b + t.b, s.c + t.c, s.d + t.d⟩

def littleEndian : Nat → Nat → List UInt8
  | 0, _ => []
  | count + 1, n => UInt8.ofNat (n % 256) :: littleEndian count (n / 256)

def pad (message : List UInt8) : List UInt8 :=
  let length := message.length
  message ++ 0x80 :: (List.replicate ((119 - length % 64) % 64) 0 ++ littleEndian 8 (8 * length))

def wordsOfBytes : List UInt8 → List UInt32
  | a :: b :: c :: d :: rest =>
    (a.toUInt32 ||| (b.toUInt32 <<< 8) ||| (c.toUInt32 <<< 16) ||| (d.toUInt32 <<< 24)) ::
      wordsOfBytes rest
  | _ => []

def absorbAll : Nat → State → List UInt32 → State
  | 0, s, _ => s
  | blocks + 1, s, words => absorbAll blocks (absorb s (words.take 16)) (words.drop 16)

def digest (message : List UInt8) : List UInt8 :=
  let words := wordsOfBytes (pad message)
  let s := absorbAll (words.length / 16) start words
  [s.a, s.b, s.c, s.d].flatMap fun word => littleEndian 4 word.toNat

end BrokerConfig.Digest.Md5
