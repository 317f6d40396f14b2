import Mathlib
import NetCoreNoc.Json.Encoding

/-! SHA-256 of a text's UTF-8 bytes, in hexadecimal, and the HMAC over it. -/
namespace NetCoreNoc.Sha256
open Json

def K : List ℕ :=
  [0x428a2f98, 0x71374491, 0xb5c0fbcf, 0xe9b5dba5, 0x3956c25b, 0x59f111f1, 0x923f82a4, 0xab1c5ed5,
    0xd807aa98, 0x12835b01, 0x243185be, 0x550c7dc3, 0x72be5d74, 0x80deb1fe, 0x9bdc06a7, 0xc19bf174,
    0xe49b69c1, 0xefbe4786, 0x0fc19dc6, 0x240ca1cc, 0x2de92c6f, 0x4a7484aa, 0x5cb0a9dc, 0x76f988da,
    0x983e5152, 0xa831c66d, 0xb00327c8, 0xbf597fc7, 0xc6e00bf3, 0xd5a79147, 0x06ca6351, 0x14292967,
    0x27b70a85, 0x2e1b2138, 0x4d2c6dfc, 0x53380d13, 0x650a7354, 0x766a0abb, 0x81c2c92e, 0x92722c85,
    0xa2bfe8a1, 0xa81a664b, 0xc24b8b70, 0xc76c51a3, 0xd192e819, 0xd6990624, 0xf40e3585, 0x106aa070,
    0x19a4c116, 0x1e376c08, 0x2748774c, 0x34b0bcb5, 0x391c0cb3, 0x4ed8aa4a, 0x5b9cca4f, 0x682e6ff3,
    0x748f82ee, 0x78a5636f, 0x84c87814, 0x8cc70208, 0x90befffa, 0xa4506ceb, 0xbef9a3f7, 0xc67178f2]

/-- The eight words of a hash. -/
structure Words where
  a : ℕ
  b : ℕ
  c : ℕ
  d : ℕ
  e : ℕ
  f : ℕ
  g : ℕ
  h : ℕ

def START : Words :=
  ⟨0x6a09e667, 0xbb67ae85, 0x3c6ef372, 0xa54ff53a, 0x510e527f, 0x9b05688c, 0x1f83d9ab, 0x5be0cd19⟩

def add (x y : ℕ) : ℕ := (x + y) % 0x100000000
def rotr (x n : ℕ) : ℕ := (x >>> n ||| x <<< (32 - n)) % 0x100000000
def sum0 (x : ℕ) : ℕ := rotr x 2 ^^^ rotr x 13 ^^^ rotr x 22
def sum1 (x : ℕ) : ℕ := rotr x 6 ^^^ rotr x 11 ^^^ rotr x 25
def sigma0 (x : ℕ) : ℕ := rotr x 7 ^^^ rotr x 18 ^^^ x >>> 3
def sigma1 (x : ℕ) : ℕ := rotr x 17 ^^^ rotr x 19 ^^^ x >>> 10
def ch (x y z : ℕ) : ℕ := x &&& y ^^^ (0xffffffff - x) &&& z
def maj (x y z : ℕ) : ℕ := x &&& y ^^^ x &&& z ^^^ y &&& z

def Words.round (s : Words) (k w : ℕ) : Words :=
  let t := add (add (add (add s.h (sum1 s.e)) (ch s.e s.f s.g)) k) w
  ⟨add t (add (sum0 s.a) (maj s.a s.b s.c)), s.a, s.b, s.c, add s.d t, s.e, s.f, s.g⟩

/-- The schedule's next word; the words before it stand newest first. -/
def nextWord (w : List ℕ) : ℕ :=
  add (add (add (sigma1 (w.getD 1 0)) (w.getD 6 0)) (sigma0 (w.getD 14 0))) (w.getD 15 0)

def rounds : List ℕ → List ℕ → Words → Words
  | [], _, s => s
  | k :: ks, w, s => rounds ks (nextWord w :: w) (s.round k (w.getD 15 0))

def Words.sum (s t : Words) : Words :=
  ⟨add s.a t.a, add s.b t.b, add s.c t.c, add s.d t.d, add s.e t.e, add s.f t.f, add s.g t.g, add s.h t.h⟩

/-- A word of bytes, the highest first. -/
def word (l : List ℕ) : ℕ := l.foldl (fun n b => n * 256 + b) 0

def wordsOf : ℕ → List ℕ → List ℕ
  | 0, _ => []
  | n + 1, l => word (l.take 4) :: wordsOf n (l.drop 4)

/-- Blocks of 64 bytes, one after the other. -/
def blocks : ℕ → List ℕ → Words → Words
  | 0, _, s => s
  | n + 1, l, s => blocks n (l.drop 64) (s.sum (rounds K (wordsOf 16 (l.take 64)).reverse s))

def lengthBytes (n : ℕ) : List ℕ := (List.range 8).map fun i => n * 8 / 256 ^ (7 - i) % 256

def padded (l : List ℕ) : List ℕ :=
  l ++ 128 :: List.replicate ((119 - l.length % 64) % 64) 0 ++ lengthBytes l.length

/-- Eight digits. -/
def hexWord (n : ℕ) : Str := (List.range 8).map fun i => hexDigit (n / 16 ^ (7 - i) % 16)

def Words.hex (s : Words) : Str :=
  hexWord s.a ++ hexWord s.b ++ hexWord s.c ++ hexWord s.d ++ hexWord s.e ++ hexWord s.f ++ hexWord s.g ++ hexWord s.h

/-- `hashlib.sha256(s.encode("utf-8")).hexdigest()` -/
def sha256 (s : Str) : Str :=
  (blocks ((padded (s.flatMap utf8)).length / 64) (padded (s.flatMap utf8)) START).hex

example : sha256 (lit "abc") = lit "ba7816bf8f01cfea414140de5dae2223b00361a396177a9cb410ff61f20015ad" := by
  decide +kernel

def wordBytes (n : ℕ) : List ℕ := (List.range 4).map fun i => n / 256 ^ (3 - i) % 256

/-- `hashlib.sha256(l).digest()` -/
def digest (l : List ℕ) : List ℕ :=
  let s := blocks ((padded l).length / 64) (padded l) START
  [s.a, s.b, s.c, s.d, s.e, s.f, s.g, s.h].flatMap wordBytes

/-- `hmac.new(key, message, hashlib.sha256).digest()`, of a key no longer than a block -/
def hmac (key message : List ℕ) : List ℕ :=
  let key := key ++ List.replicate (64 - key.length) 0
  digest (key.map (· ^^^ 0x5c) ++ digest (key.map (· ^^^ 0x36) ++ message))

end NetCoreNoc.Sha256
