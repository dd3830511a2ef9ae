namespace Overlay.Digest

def roundConstants : Array UInt32 := #[
  0x428a2f98, 0x71374491, 0xb5c0fbcf, 0xe9b5dba5, 0x3956c25b, 0x59f111f1, 0x923f82a4, 0xab1c5ed5,
  0xd807aa98, 0x12835b01, 0x243185be, 0x550c7dc3, 0x72be5d74, 0x80deb1fe, 0x9bdc06a7, 0xc19bf174,
  0xe49b69c1, 0xefbe4786, 0x0fc19dc6, 0x240ca1cc, 0x2de92c6f, 0x4a7484aa, 0x5cb0a9dc, 0x76f988da,
  0x983e5152, 0xa831c66d, 0xb00327c8, 0xbf597fc7, 0xc6e00bf3, 0xd5a79147, 0x06ca6351, 0x14292967,
  0x27b70a85, 0x2e1b2138, 0x4d2c6dfc, 0x53380d13, 0x650a7354, 0x766a0abb, 0x81c2c92e, 0x92722c85,
  0xa2bfe8a1, 0xa81a664b, 0xc24b8b70, 0xc76c51a3, 0xd192e819, 0xd6990624, 0xf40e3585, 0x106aa070,
  0x19a4c116, 0x1e376c08, 0x2748774c, 0x34b0bcb5, 0x391c0cb3, 0x4ed8aa4a, 0x5b9cca4f, 0x682e6ff3,
  0x748f82ee, 0x78a5636f, 0x84c87814, 0x8cc70208, 0x90befffa, 0xa4506ceb, 0xbef9a3f7, 0xc67178f2]

structure Words where
  a : UInt32
  b : UInt32
  c : UInt32
  d : UInt32
  e : UInt32
  f : UInt32
  g : UInt32
  h : UInt32

def Words.initial : Words :=
  ⟨0x6a09e667, 0xbb67ae85, 0x3c6ef372, 0xa54ff53a, 0x510e527f, 0x9b05688c, 0x1f83d9ab, 0x5be0cd19⟩

def Words.add (x y : Words) : Words :=
  ⟨x.a + y.a, x.b + y.b, x.c + y.c, x.d + y.d, x.e + y.e, x.f + y.f, x.g + y.g, x.h + y.h⟩

def Words.toList (x : Words) : List UInt32 := [x.a, x.b, x.c, x.d, x.e, x.f, x.g, x.h]

def rotateRight (x n : UInt32) : UInt32 := (x >>> n) ||| (x <<< (32 - n))

def round (s : Words) (w k : UInt32) : Words :=
  let s1 := rotateRight s.e 6 ^^^ rotateRight s.e 11 ^^^ rotateRight s.e 25
  let choice := (s.e &&& s.f) ^^^ (~~~s.e &&& s.g)
  let t1 := s.h + s1 + choice + k + w
  let s0 := rotateRight s.a 2 ^^^ rotateRight s.a 13 ^^^ rotateRight s.a 22
  let majority := (s.a &&& s.b) ^^^ (s.a &&& s.c) ^^^ (s.b &&& s.c)
  ⟨t1 + (s0 + majority), s.a, s.b, s.c, s.d + t1, s.e, s.f, s.g⟩

def scheduled (ws : Array UInt32) : UInt32 :=
  let word (back : Nat) : UInt32 := ws.getD (ws.size - back) 0
  let x := word 15
  let y := word 2
  let s0 := rotateRight x 7 ^^^ rotateRight x 18 ^^^ (x >>> 3)
  let s1 := rotateRight y 17 ^^^ rotateRight y 19 ^^^ (y >>> 10)
  word 16 + s0 + word 7 + s1

def compress (s : Words) (block : Array UInt32) : Words :=
  -- the block is the beginning of the schedule of 64 words
  let ws := (List.range 48).foldl (fun ws _ => ws.push (scheduled ws)) block
  let last := (ws.zip roundConstants).foldl (fun s (w, k) => round s w k) s
  s.add last

/-- The bytes with a one bit, zeros and the length in bits, so that they fill whole blocks. -/
def padded (bytes : Array UInt8) : Array UInt8 :=
  -- the one bit takes a byte and the length eight
  let zeros := (119 - bytes.size % 64) % 64
  let bits := (8 * bytes.size).toUInt64
  let length := (List.range 8).map fun i => (bits >>> (56 - 8 * i).toUInt64).toUInt8
  bytes.push 0x80 ++ Array.replicate zeros 0 ++ length.toArray

def wordAt (bytes : Array UInt8) (i : Nat) : UInt32 :=
  (List.range 4).foldl (fun w j => (w <<< 8) ||| (bytes.getD (i + j) 0).toUInt32) 0

def ofBytes (bytes : Array UInt8) : Words :=
  let all := padded bytes
  (List.range (all.size / 64)).foldl
    (fun s i => compress s ((Array.range 16).map fun j => wordAt all (64 * i + 4 * j))) .initial

def wordText (w : UInt32) : String :=
  let ds := Nat.toDigits 16 w.toNat
  .ofList (List.replicate (8 - ds.length) '0' ++ ds)

def ofText (text : String) : String :=
  String.join ((ofBytes text.toUTF8.data).toList.map wordText)

end Overlay.Digest
