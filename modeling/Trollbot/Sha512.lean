import Trollbot.HashProcess
import Trollbot.HashText

-- SHA-512 as the crypto module computes it.
namespace Trollbot.Crypto
open CBuffer BlockHash

-- An array of eight words.
structure Words8 where
  s0 : UInt64
  s1 : UInt64
  s2 : UInt64
  s3 : UInt64
  s4 : UInt64
  s5 : UInt64
  s6 : UInt64
  s7 : UInt64
deriving DecidableEq

def k512 : List UInt64 := [
  0x428a2f98d728ae22,0x7137449123ef65cd,0xb5c0fbcfec4d3b2f,0xe9b5dba58189dbbc,0x3956c25bf348b538,
  0x59f111f1b605d019,0x923f82a4af194f9b,0xab1c5ed5da6d8118,0xd807aa98a3030242,0x12835b0145706fbe,
  0x243185be4ee4b28c,0x550c7dc3d5ffb4e2,0x72be5d74f27b896f,0x80deb1fe3b1696b1,0x9bdc06a725c71235,
  0xc19bf174cf692694,0xe49b69c19ef14ad2,0xefbe4786384f25e3,0x0fc19dc68b8cd5b5,0x240ca1cc77ac9c65,
  0x2de92c6f592b0275,0x4a7484aa6ea6e483,0x5cb0a9dcbd41fbd4,0x76f988da831153b5,0x983e5152ee66dfab,
  0xa831c66d2db43210,0xb00327c898fb213f,0xbf597fc7beef0ee4,0xc6e00bf33da88fc2,0xd5a79147930aa725,
  0x06ca6351e003826f,0x142929670a0e6e70,0x27b70a8546d22ffc,0x2e1b21385c26c926,0x4d2c6dfc5ac42aed,
  0x53380d139d95b3df,0x650a73548baf63de,0x766a0abb3c77b2a8,0x81c2c92e47edaee6,0x92722c851482353b,
  0xa2bfe8a14cf10364,0xa81a664bbc423001,0xc24b8b70d0f89791,0xc76c51a30654be30,0xd192e819d6ef5218,
  0xd69906245565a910,0xf40e35855771202a,0x106aa07032bbd1b8,0x19a4c116b8d2d0c8,0x1e376c085141ab53,
  0x2748774cdf8eeb99,0x34b0bcb5e19b48a8,0x391c0cb3c5c95a63,0x4ed8aa4ae3418acb,0x5b9cca4f7763e373,
  0x682e6ff3d6b2b8a3,0x748f82ee5defb2fc,0x78a5636f43172f60,0x84c87814a1f0ab72,0x8cc702081a6439ec,
  0x90befffa23631e28,0xa4506cebde82bde9,0xbef9a3f7b2c67915,0xc67178f2e372532b,0xca273eceea26619c,
  0xd186b8c721c0c207,0xeada7dd6cde0eb1e,0xf57d4f7fee6ed178,0x06f067aa72176fba,0x0a637dc5a2c898a6,
  0x113f9804bef90dae,0x1b710b35131c471b,0x28db77f523047d84,0x32caab7b40c72493,0x3c9ebe0a15c9bebc,
  0x431d67c49c100d4c,0x4cc5d4becb3e42b6,0x597f299cfc657e2a,0x5fcb6fab3ad6faec,0x6c44198c4a475817]

def ch (x y z : UInt64) : UInt64 := z ^^^ (x &&& (y ^^^ z))
def maj (x y z : UInt64) : UInt64 := ((x ||| y) &&& z) ||| (x &&& y)
def ror64c (x n : UInt64) : UInt64 := (x >>> n) ||| (x <<< (64 - n))
def sigma0 (x : UInt64) : UInt64 := ror64c x 28 ^^^ ror64c x 34 ^^^ ror64c x 39
def sigma1 (x : UInt64) : UInt64 := ror64c x 14 ^^^ ror64c x 18 ^^^ ror64c x 41
def gamma0 (x : UInt64) : UInt64 := ror64c x 1 ^^^ ror64c x 8 ^^^ (x >>> 7)
def gamma1 (x : UInt64) : UInt64 := ror64c x 19 ^^^ ror64c x 61 ^^^ (x >>> 6)

def store64H (x : UInt64) : List UInt8 :=
  [(x >>> 56).toUInt8,(x >>> 48).toUInt8,(x >>> 40).toUInt8,(x >>> 32).toUInt8,(x >>> 24).toUInt8,(x >>> 16).toUInt8,
    (x >>> 8).toUInt8,x.toUInt8]

-- At y[0].
def load64H (y : List UInt8) : UInt64 :=
  ((y.getD 0 0).toUInt64 <<< 56) ||| ((y.getD 1 0).toUInt64 <<< 48) ||| ((y.getD 2 0).toUInt64 <<< 40) |||
    ((y.getD 3 0).toUInt64 <<< 32) ||| ((y.getD 4 0).toUInt64 <<< 24) ||| ((y.getD 5 0).toUInt64 <<< 16) |||
    ((y.getD 6 0).toUInt64 <<< 8) ||| (y.getD 7 0).toUInt64

-- W[i] behind the words that are filled.
def fillWord (w : List UInt64) : List UInt64 :=
  w ++ [gamma1 (w.getD (w.length - 2) 0) + w.getD (w.length - 7) 0 + gamma0 (w.getD (w.length - 15) 0) + w.getD (w.length - 16) 0]

def schedule (buf : List UInt8) : List UInt64 :=
  (List.range 64).foldl (fun w _ => fillWord w) ((List.range 16).map (fun i => load64H (buf.drop (8 * i))))

-- What the macro leaves in d and h.
def rnd (a b c d e f g h k w : UInt64) : UInt64 × UInt64 :=
  let t0 := h + sigma1 e + ch e f g + k + w
  let t1 := sigma0 a + maj a b c
  (d + t0,t0 + t1)

-- The loop with RND eight times over, each time with the names moved on by one.
def eightRounds (w : List UInt64) (s : Words8) (i : Nat) : Words8 :=
  let ⟨s0,s1,s2,s3,s4,s5,s6,s7⟩ := s
  let (s3,s7) := rnd s0 s1 s2 s3 s4 s5 s6 s7 (k512.getD i 0) (w.getD i 0)
  let (s2,s6) := rnd s7 s0 s1 s2 s3 s4 s5 s6 (k512.getD (i + 1) 0) (w.getD (i + 1) 0)
  let (s1,s5) := rnd s6 s7 s0 s1 s2 s3 s4 s5 (k512.getD (i + 2) 0) (w.getD (i + 2) 0)
  let (s0,s4) := rnd s5 s6 s7 s0 s1 s2 s3 s4 (k512.getD (i + 3) 0) (w.getD (i + 3) 0)
  let (s7,s3) := rnd s4 s5 s6 s7 s0 s1 s2 s3 (k512.getD (i + 4) 0) (w.getD (i + 4) 0)
  let (s6,s2) := rnd s3 s4 s5 s6 s7 s0 s1 s2 (k512.getD (i + 5) 0) (w.getD (i + 5) 0)
  let (s5,s1) := rnd s2 s3 s4 s5 s6 s7 s0 s1 (k512.getD (i + 6) 0) (w.getD (i + 6) 0)
  let (s4,s0) := rnd s1 s2 s3 s4 s5 s6 s7 s0 (k512.getD (i + 7) 0) (w.getD (i + 7) 0)
  ⟨s0,s1,s2,s3,s4,s5,s6,s7⟩

def rounds (w : List UInt64) (s : Words8) : Words8 := (List.range 10).foldl (fun s i => eightRounds w s (8 * i)) s

-- The loop that LTC_SMALL_CODE selects.
def smallRound (w : List UInt64) (s : Words8) (i : Nat) : Words8 :=
  let t0 := s.s7 + sigma1 s.s4 + ch s.s4 s.s5 s.s6 + k512.getD i 0 + w.getD i 0
  let t1 := sigma0 s.s0 + maj s.s0 s.s1 s.s2
  ⟨t0 + t1,s.s0,s.s1,s.s2,s.s3 + t0,s.s4,s.s5,s.s6⟩

def smallRounds (w : List UInt64) (s : Words8) : Words8 := (List.range 80).foldl (smallRound w) s

def sha512Compress (state : Words8) (buf : List UInt8) : Words8 :=
  let s := rounds (schedule buf) state
  ⟨state.s0 + s.s0,state.s1 + s.s1,state.s2 + s.s2,state.s3 + s.s3,state.s4 + s.s4,state.s5 + s.s5,state.s6 + s.s6,state.s7 + s.s7⟩

def initWords : Words8 := ⟨0x6a09e667f3bcc908,0xbb67ae8584caa73b,0x3c6ef372fe94f82b,0xa54ff53a5f1d36f1,0x510e527fade682d1,
  0x9b05688c2b3e6c1f,0x1f83d9abfb41bd6b,0x5be0cd19137e2179⟩

-- The buffer stays as it is found.
def sha512Init (md : HashState Words8) : HashState Words8 := { md with curlen := 0,length := 0,state := initWords }

def sha512Process : HashState Words8 → List UInt8 → Option (CryptError × HashState Words8) := hashProcess 128 sha512Compress

-- The loop that appends zeros.
def zeroTo (md : HashState Words8) (upto : Nat) : Option (HashState Words8) :=
  (write md.buf md.curlen (List.replicate (upto - md.curlen) (some 0))).map (fun buf => { md with curlen := max md.curlen upto,buf := buf })

def compressBuf (md : HashState Words8) : Option (HashState Words8) :=
  (bytesOf md.buf).map (fun block => { md with state := sha512Compress md.state block })

def output (s : Words8) : List UInt8 :=
  store64H s.s0 ++ store64H s.s1 ++ store64H s.s2 ++ store64H s.s3 ++ store64H s.s4 ++ store64H s.s5 ++ store64H s.s6 ++ store64H s.s7

-- With the digest where there is one.
def sha512Done (md : HashState Words8) : Option (CryptError × List UInt8) :=
  if md.buf.length ≤ md.curlen then some (.invalidArg,[])
  else do
    let length := md.length + md.curlen.toUInt64 * 8
    let buf ← write md.buf md.curlen [some 0x80]
    let md : HashState Words8 := ⟨length,md.state,md.curlen + 1,buf⟩
    let md ←
      if 112 < md.curlen then do
        let md ← zeroTo md 128
        let md ← compressBuf md
        some { md with curlen := 0 }
      else some md
    let md ← zeroTo md 120
    let buf ← write md.buf 120 ((store64H md.length).map some)
    let md ← compressBuf { md with buf := buf }
    some (.ok,output md.state)

-- The calls in create_hash, the bytes given in any number of pieces. `md` is on the stack.
def sha512Pieces (md : HashState Words8) (pieces : List (List UInt8)) : Option (CryptError × List UInt8) := do
  let md ← pieces.foldlM (fun md piece => (sha512Process md piece).map Prod.snd) (sha512Init md)
  sha512Done md

def passBytes (pass : Str) : List UInt8 := pass.map (fun c => c.toNat.toUInt8)

-- create_hash, which looks at none of the results. `tmp` is zeros at first.
def createHashOf (md : HashState Words8) (pass hashType : Str) : Option Str :=
  if tstrcasecmp hashType "sha512".toList = 0 then do
    let (err,out) ← sha512Pieces md [passBytes pass]
    let tmp := if err = .ok then out else List.replicate 64 0
    tmp.foldlM (fun hash byte => strcat 129 hash (hex byte)) []
  else none

-- The hash of the standard: a bit, zeros and the number of bits in 128 bits, to whole blocks of 1024 bits.
def sha512Scheme : Scheme Words8 UInt8 where
  size := 128
  positive := by decide
  start := initWords
  compress := sha512Compress
  padding n := 0x80 :: List.replicate ((239 - n % 128) % 128) 0 ++ bigEndian 16 (8 * n)
  whole n := by
    simp only [List.cons_append,List.length_cons,List.length_append,List.length_replicate,bigEndian_length]
    omega

theorem eight_small (w : List UInt64) (s : Words8) (i : Nat) : eightRounds w s i =
    smallRound w (smallRound w (smallRound w (smallRound w (smallRound w (smallRound w (smallRound w (smallRound w s i) (i + 1)) (i + 2)) (i + 3))
      (i + 4)) (i + 5)) (i + 6)) (i + 7) := rfl

theorem range_eight (n : Nat) : List.range (8 * (n + 1)) =
    List.range (8 * n) ++ [8 * n,8 * n + 1,8 * n + 2,8 * n + 3,8 * n + 4,8 * n + 5,8 * n + 6,8 * n + 7] := by
  rw [Nat.mul_add,List.range_add]
  congr 1

-- Eight rounds with the names moved on are eight rounds that move the words, for any number of eights.
theorem rounds_by_eight (w : List UInt64) (s : Words8) (n : Nat) :
    (List.range n).foldl (fun s i => eightRounds w s (8 * i)) s = (List.range (8 * n)).foldl (smallRound w) s := by
  induction n with
  | zero => rfl
  | succ n ih =>
      rw [List.range_succ,List.foldl_append,ih,range_eight,List.foldl_append]
      exact eight_small w _ _

theorem unrolled_rounds (w : List UInt64) (s : Words8) : rounds w s = smallRounds w s := rounds_by_eight w s 10

theorem store64H_bytes (n : Nat) : store64H n.toUInt64 = bigEndian 8 n := by
  simp only [store64H,bigEndian,List.nil_append,List.cons_append,List.cons.injEq,and_true,Nat.div_div_eq_div_mul]
  refine ⟨?_,?_,?_,?_,?_,?_,?_,?_⟩
  all_goals
    apply UInt8.toNat_inj.mp
    simp [Nat.shiftRight_eq_div_pow]
  all_goals omega

-- The 64 bits that the code writes are the low half; the zeros before them are the high half.
theorem padding_bytes (n : Nat) (short : n < 2 ^ 61) :
    sha512Scheme.padding n = 0x80 :: List.replicate ((239 - n % 128) % 128 + 8) 0 ++ store64H (8 * n).toUInt64 := by
  have high : 8 * n / 256 ^ 8 = 0 := Nat.div_eq_of_lt (by omega)
  have halves := bigEndian_add 8 8 (8 * n)
  rw [high,bigEndian_zero] at halves
  rw [store64H_bytes,List.replicate_add]
  simp only [sha512Scheme]
  rw [halves]
  simp

section
variable {md : HashState Words8} {s waiting : List UInt8}

theorem init_holds (room : md.buf.length = 128) : Holds sha512Scheme (sha512Init md) [] := by
  refine ⟨⟨room,rfl,rfl⟩,rfl,rfl⟩

theorem pieces_hold (holds : Holds sha512Scheme md s) (pieces : List (List UInt8)) :
    ∃ after, pieces.foldlM (fun md piece => (sha512Process md piece).map Prod.snd) md = some after ∧
      Holds sha512Scheme after (s ++ pieces.flatten) := by
  induction pieces generalizing md s with
  | nil => exact ⟨md,rfl,by simpa using holds⟩
  | cons piece pieces ih =>
      obtain ⟨middle,done,kept⟩ := process_holds holds piece
      obtain ⟨after,more,same⟩ := ih kept
      have one : (sha512Process md piece).map Prod.snd = some middle := by
        rw [sha512Process]
        change (hashProcess sha512Scheme.size sha512Scheme.compress md piece).map Prod.snd = some middle
        rw [done]
        rfl
      refine ⟨after,by rw [List.foldlM_cons,one]; exact more,?_⟩
      rwa [List.append_assoc] at same

theorem zeroTo_fills (md : HashState Words8) (filled : Filled 128 md.buf md.curlen waiting) (upto : Nat) (more : md.curlen ≤ upto) (fits : upto ≤ 128) :
    ∃ buf, zeroTo md upto = some { md with curlen := upto,buf := buf } ∧
      Filled 128 buf upto (waiting ++ List.replicate (upto - md.curlen) 0) := by
  have count := filled.count
  obtain ⟨buf,written,kept⟩ := filled.add (List.replicate (upto - md.curlen) 0) (by simp; omega)
  rw [List.map_replicate] at written
  have all : md.curlen + (List.replicate (upto - md.curlen) (0 : UInt8)).length = upto := by simp; omega
  rw [all] at kept
  refine ⟨buf,?_,kept⟩
  rw [zeroTo,written,Nat.max_eq_right more]
  rfl

theorem compressBuf_takes (md : HashState Words8) (filled : Filled 128 md.buf count waiting) (full : waiting.length = 128) :
    compressBuf md = some { md with state := sha512Compress md.state waiting } := by
  rw [compressBuf,filled.block full]
  rfl

theorem last_block_done (md : HashState Words8) (filled : Filled 128 md.buf md.curlen waiting) (fits : md.curlen ≤ 120) :
    (do
      let md ← zeroTo md 120
      let buf ← write md.buf 120 ((store64H md.length).map some)
      let md ← compressBuf { md with buf := buf }
      some (CryptError.ok,output md.state)) =
      some (.ok,output (sha512Compress md.state (waiting ++ List.replicate (120 - md.curlen) 0 ++ store64H md.length))) := by
  obtain ⟨buf,zeros,kept⟩ := zeroTo_fills md filled 120 fits (by decide)
  have count := filled.count
  have eight : (store64H md.length).length = 8 := rfl
  have room : (waiting ++ List.replicate (120 - md.curlen) (0 : UInt8)).length = 120 := by simp; omega
  obtain ⟨after,written,whole⟩ := kept.add (store64H md.length) (by omega)
  have taken : compressBuf { md with curlen := 120,buf := after } =
      some { md with state := sha512Compress md.state (waiting ++ List.replicate (120 - md.curlen) 0 ++ store64H md.length),curlen := 120,buf := after } :=
    compressBuf_takes _ whole (by rw [List.length_append,room,eight])
  simp only [zeros,written,taken,Option.bind_eq_bind,Option.bind_some]

theorem done_one (filled : Filled 128 md.buf md.curlen waiting) (room : waiting.length < 112) :
    sha512Done md = some (.ok,output (sha512Compress md.state
      (waiting ++ [0x80] ++ List.replicate (120 - (waiting.length + 1)) 0 ++ store64H (md.length + md.curlen.toUInt64 * 8)))) := by
  have count := filled.count
  obtain ⟨buf,begun,kept⟩ := filled.add [0x80] (by change _ + 1 ≤ 128; omega)
  have last := last_block_done ⟨md.length + md.curlen.toUInt64 * 8,md.state,md.curlen + 1,buf⟩ kept (by change md.curlen + 1 ≤ 120; omega)
  have begun' : write md.buf md.curlen [some 0x80] = some buf := begun
  rw [← count,sha512Done,if_neg (by rw [filled.room]; omega)]
  simp only [begun',Option.bind_eq_bind,Option.bind_some]
  rw [if_neg (by omega)]
  exact last

theorem done_two (filled : Filled 128 md.buf md.curlen waiting) (below : waiting.length < 128) (full : 112 ≤ waiting.length) :
    sha512Done md = some (.ok,output (sha512Compress
      (sha512Compress md.state (waiting ++ [0x80] ++ List.replicate (128 - (waiting.length + 1)) 0))
      (List.replicate 120 0 ++ store64H (md.length + md.curlen.toUInt64 * 8)))) := by
  have count := filled.count
  obtain ⟨buf,begun,kept⟩ := filled.add [0x80] (by change _ + 1 ≤ 128; omega)
  have begun' : write md.buf md.curlen [some 0x80] = some buf := begun
  obtain ⟨after,zeros,whole⟩ :=
    zeroTo_fills ⟨md.length + md.curlen.toUInt64 * 8,md.state,md.curlen + 1,buf⟩ kept 128 (by change md.curlen + 1 ≤ 128; omega) (by decide)
  have room : (waiting ++ [0x80] ++ List.replicate (128 - (md.curlen + 1)) (0 : UInt8)).length = 128 := by
    simp only [List.length_append,List.length_replicate,List.length_singleton]
    omega
  have taken := compressBuf_takes (HashState.mk (md.length + md.curlen.toUInt64 * 8) md.state 128 after) whole room
  dsimp only at taken
  have last := last_block_done ⟨md.length + md.curlen.toUInt64 * 8,
    sha512Compress md.state (waiting ++ [0x80] ++ List.replicate (128 - (md.curlen + 1)) 0),0,after⟩ whole.emptied (Nat.zero_le 120)
  rw [← count,sha512Done,if_neg (by rw [filled.room]; omega)]
  simp only [begun',Option.bind_eq_bind,Option.bind_some]
  rw [if_pos (by omega)]
  simp only [zeros,taken,Option.bind_some]
  exact last

-- What is left is one block where the bit leaves room for the length, and two blocks otherwise.
theorem digest_one (s : List UInt8) (short : s.length < 2 ^ 61) (room : (rest 128 s).length < 112) :
    sha512Scheme.digest s = sha512Compress (sha512Scheme.chain s)
      (rest 128 s ++ [0x80] ++ List.replicate (120 - ((rest 128 s).length + 1)) 0 ++ store64H (8 * s.length).toUInt64) := by
  have fewer : (rest 128 s).length = s.length % 128 := rest_length 128 s
  have zeros : (239 - s.length % 128) % 128 + 8 = 120 - ((rest 128 s).length + 1) := by omega
  have parts : rest 128 s ++ sha512Scheme.padding s.length =
      rest 128 s ++ [0x80] ++ List.replicate (120 - ((rest 128 s).length + 1)) 0 ++ store64H (8 * s.length).toUInt64 := by
    rw [padding_bytes s.length short,zeros]
    simp
  have eight : (store64H (8 * s.length).toUInt64).length = 8 := rfl
  have whole : (rest 128 s ++ sha512Scheme.padding s.length).length = 128 := by
    rw [parts]
    simp only [List.length_append,List.length_replicate,List.length_singleton,eight]
    omega
  rw [sha512Scheme.digest_rest s]
  change (blocks 128 (rest 128 s ++ _)).foldl sha512Compress _ = _
  rw [(blocks_one (by decide) whole).1,List.foldl_cons,List.foldl_nil,parts]

theorem digest_two (s : List UInt8) (short : s.length < 2 ^ 61) (full : 112 ≤ (rest 128 s).length) :
    sha512Scheme.digest s = sha512Compress
      (sha512Compress (sha512Scheme.chain s) (rest 128 s ++ [0x80] ++ List.replicate (128 - ((rest 128 s).length + 1)) 0))
      (List.replicate 120 0 ++ store64H (8 * s.length).toUInt64) := by
  have fewer : (rest 128 s).length = s.length % 128 := rest_length 128 s
  have below : (rest 128 s).length < 128 := rest_lt (by decide) s
  have zeros : (239 - s.length % 128) % 128 + 8 = 128 - ((rest 128 s).length + 1) + 120 := by omega
  have parts : rest 128 s ++ sha512Scheme.padding s.length =
      (rest 128 s ++ [0x80] ++ List.replicate (128 - ((rest 128 s).length + 1)) 0) ++
        (List.replicate 120 0 ++ store64H (8 * s.length).toUInt64) := by
    rw [padding_bytes s.length short,zeros,List.replicate_add]
    simp
  have first : (rest 128 s ++ [0x80] ++ List.replicate (128 - ((rest 128 s).length + 1)) (0 : UInt8)).length = 128 := by
    simp only [List.length_append,List.length_replicate,List.length_singleton]
    omega
  have second : (List.replicate 120 (0 : UInt8) ++ store64H (8 * s.length).toUInt64).length = 128 := by simp [store64H]
  rw [sha512Scheme.digest_rest s]
  change (blocks 128 (rest 128 s ++ _)).foldl sha512Compress _ = _
  rw [parts,blocks_cons (by decide) first,(blocks_one (by decide) second).1]
  rfl

-- The number of bits, as the counter has it.
theorem bits_counted (holds : Holds sha512Scheme md s) : md.length + md.curlen.toUInt64 * 8 = (8 * s.length).toUInt64 := by
  have parts : 8 * s.length = 8 * (128 * (s.length / 128)) + s.length % 128 * 8 := by
    have whole := Nat.div_add_mod s.length 128
    omega
  have waits : md.curlen = s.length % 128 := by rw [holds.filled.count]; exact rest_length 128 s
  have counted : md.length = (8 * (128 * (s.length / 128))).toUInt64 := by
    rw [holds.counted]
    simp [blocks,sha512Scheme]
  rw [counted,waits,parts]
  simp only [Nat.toUInt64]
  rw [UInt64.ofNat_add,UInt64.ofNat_mul (s.length % 128)]
  rfl

theorem done_holds (holds : Holds sha512Scheme md s) (short : s.length < 2 ^ 61) :
    sha512Done md = some (.ok,output (sha512Scheme.digest s)) := by
  have bits := bits_counted holds
  by_cases room : (rest 128 s).length < 112
  · rw [done_one holds.filled room,digest_one s short room,bits,holds.state]
    rfl
  · have full := Nat.le_of_not_lt room
    rw [done_two holds.filled (rest_lt (by decide) s) full,digest_two s short full,bits,holds.state]
    rfl

-- However the bytes come, the result is the hash of the standard.
theorem pieces_hashed (md : HashState Words8) (room : md.buf.length = 128) (pieces : List (List UInt8)) (short : pieces.flatten.length < 2 ^ 61) :
    sha512Pieces md pieces = some (.ok,output (sha512Scheme.digest pieces.flatten)) := by
  obtain ⟨after,processed,holds⟩ := pieces_hold (init_holds room) pieces
  rw [List.nil_append] at holds
  rw [sha512Pieces,processed]
  exact done_holds holds short

end

theorem store64H_inj {x y : UInt64} (same : store64H x = store64H y) : x = y := by
  have bytes : ∀ x : UInt64, store64H x = bigEndian 8 x.toNat := by
    intro x
    rw [← store64H_bytes]
    simp
  rw [bytes,bytes] at same
  exact UInt64.toNat_inj.mp (bigEndian_inj x.toNat_lt y.toNat_lt same)

theorem store64H_append {s t : List UInt8} {x y : UInt64} (same : s ++ store64H x = t ++ store64H y) : s = t ∧ x = y := by
  obtain ⟨front,last⟩ := List.append_inj' same (by simp only [store64H,List.length_cons])
  exact ⟨front,store64H_inj last⟩

theorem output_inj (same : output s = output t) : s = t := by
  obtain ⟨s0,s1,s2,s3,s4,s5,s6,s7⟩ := s
  obtain ⟨t0,t1,t2,t3,t4,t5,t6,t7⟩ := t
  simp only [output] at same
  obtain ⟨same,h7⟩ := store64H_append same
  obtain ⟨same,h6⟩ := store64H_append same
  obtain ⟨same,h5⟩ := store64H_append same
  obtain ⟨same,h4⟩ := store64H_append same
  obtain ⟨same,h3⟩ := store64H_append same
  obtain ⟨same,h2⟩ := store64H_append same
  obtain ⟨same,h1⟩ := store64H_append same
  rw [store64H_inj same,h1,h2,h3,h4,h5,h6,h7]

theorem lengths_told : sha512Scheme.Strengthened (2 ^ 61) := by
  apply Scheme.strengthened _ (fun n => bigEndian 16 (8 * n)) (fun n => 0x80 :: List.replicate ((239 - n % 128) % 128) 0) (fun _ => rfl)
  · intro m n
    simp
  · intro n
    simp [sha512Scheme]
  · intro n none'
    have length := congrArg List.length none'
    simp at length
  · intro m n small small' same
    change bigEndian 16 (8 * m) = bigEndian 16 (8 * n) at same
    have equal := bigEndian_inj (by omega) (by omega) same
    omega

def sha512Digest (pass : Str) : Digest := ⟨output (sha512Scheme.digest (passBytes pass)),rfl⟩

theorem createHash_code (md : HashState Words8) (room : md.buf.length = 128) {pass : Str} (short : pass.length < 2 ^ 61) (hashType : Str) :
    createHashOf md pass hashType = createHash sha512Digest pass hashType := by
  have length : [passBytes pass].flatten.length < 2 ^ 61 := by simpa [passBytes] using short
  obtain ⟨after,processed,holds⟩ := pieces_hold (init_holds room) [passBytes pass]
  have hashed : sha512Pieces md [passBytes pass] = some (.ok,output (sha512Scheme.digest (passBytes pass))) := by
    rw [sha512Pieces,processed]
    rw [List.nil_append] at holds
    have done := done_holds holds length
    rwa [List.flatten_singleton] at done
  simp only [createHashOf,createHash,hashed]
  rfl

theorem digests_collide (short : s.length < 2 ^ 61) (short' : t.length < 2 ^ 61) (differ : s ≠ t)
    (same : output (sha512Scheme.digest s) = output (sha512Scheme.digest t)) :
    Collides sha512Compress initWords (sha512Scheme.padded s) (sha512Scheme.padded t) :=
  sha512Scheme.digest_collides lengths_told (fun _ => by simp [sha512Scheme]) short short' differ (output_inj same)

theorem passBytes_length (pass : Str) : (passBytes pass).length = pass.length := List.length_map _

-- A login that is accepted, whatever the password was set to: other bytes need a collision of the compression or another layout of the digits.
theorem accepted_collides {user : User} {p q : Str} (md md' : HashState Words8) (room : md.buf.length = 128) (room' : md'.buf.length = 128)
    (short : p.length < 2 ^ 61) (short' : q.length < 2 ^ 61) (known : tstrcasecmp hashType "sha512".toList = 0)
    (found : users.find? (fun user => handle = user.username) = some user) (stored : user.passhash = createHashOf md p hashType)
    (typed : user.hashType = some hashType) (some' : q ≠ []) (dashless : q ≠ ['-'])
    (accepted : eggPasswdok (some (createHashOf md')) users handle q = some true) :
    passBytes p = passBytes q ∨
      Collides sha512Compress initWords (sha512Scheme.padded (passBytes p)) (sha512Scheme.padded (passBytes q)) ∨
      ¬Aligned (sha512Digest p) (sha512Digest q) := by
  obtain ⟨hash,type,create,has,types,loaded,made⟩ := passwdok_bound found accepted ⟨some',dashless⟩
  obtain rfl : hashType = type := Option.some.inj (typed.symm.trans types)
  obtain rfl := Option.some.inj loaded
  rw [createHash_code md room short] at stored
  rw [createHash_code md' room' short'] at made
  by_cases equal : passBytes p = passBytes q
  · exact .inl equal
  · by_cases aligned : Aligned (sha512Digest p) (sha512Digest q)
    · have texts : hashString (sha512Digest p) = hashString (sha512Digest q) := by
        rw [← hash_known known,← stored,has,← made,hash_known known]
      have digest := aligned_digits aligned ((texts_same _ _).mp texts)
      rw [← passBytes_length] at short short'
      exact .inr (.inl (digests_collide short short' equal (congrArg Subtype.val digest)))
    · exact .inr (.inr aligned)

-- What is on the stack before sha512_init.
def onStack : HashState Words8 := ⟨0,initWords,7,List.replicate 128 none⟩

theorem pieces_hashed_two : sha512Pieces onStack [[97],[98,99]] = some (.ok,output (sha512Scheme.digest [97,98,99])) :=
  pieces_hashed onStack rfl [[97],[98,99]] (by decide)

example : sha512Pieces onStack [[97],[98,99]] = some (.ok,[
    0xdd,0xaf,0x35,0xa1,0x93,0x61,0x7a,0xba,0xcc,0x41,0x73,0x49,0xae,0x20,0x41,0x31,
    0x12,0xe6,0xfa,0x4e,0x89,0xa9,0x7e,0xa2,0x0a,0x9e,0xee,0xe6,0x4b,0x55,0xd3,0x9a,
    0x21,0x92,0x99,0x2a,0x27,0x4f,0xc1,0xa8,0x36,0xba,0x3c,0x23,0xa3,0xfe,0xeb,0xbd,
    0x45,0x4d,0x44,0x23,0x64,0x3c,0xe8,0x0e,0x2a,0x9a,0xc9,0x4f,0xa5,0x4c,0xa4,0x9f]) := by
  decide +kernel

def secretUser : User :=
  { newUser "bob".toList none (createHashOf onStack "secret".toList "sha512".toList) none none none none with hashType := some "sha512".toList }

theorem accepted_secret : eggPasswdok (some (createHashOf onStack)) [secretUser] "bob".toList "secret".toList = some true ∧
    (passBytes "secret".toList = passBytes "secret".toList ∨
      Collides sha512Compress initWords (sha512Scheme.padded (passBytes "secret".toList)) (sha512Scheme.padded (passBytes "secret".toList)) ∨
      ¬Aligned (sha512Digest "secret".toList) (sha512Digest "secret".toList)) := by
  have known : tstrcasecmp "sha512".toList "sha512".toList = 0 := by decide
  have short : "secret".toList.length < 2 ^ 61 := by decide
  have found : [secretUser].find? (fun user => "bob".toList = user.username) = some secretUser := List.find?_cons_of_pos (by decide)
  have accepted : eggPasswdok (some (createHashOf onStack)) [secretUser] "bob".toList "secret".toList = some true := by
    have code : createHashOf onStack "secret".toList "sha512".toList = hashString (sha512Digest "secret".toList) := by
      rw [createHash_code onStack rfl short,hash_known known]
    have plain : ¬("secret".toList = [] ∨ "secret".toList = ['-']) := by decide
    have stored : secretUser.passhash = createHashOf onStack "secret".toList "sha512".toList := by simp only [secretUser,newUser]
    have typed : secretUser.hashType = some "sha512".toList := by simp only [secretUser]
    simp only [eggPasswdok,found,if_neg plain,typed,eggMakepasswd,Option.bind_some,stored,code,(hashString_digits _).1,Option.map_some,
      BEq.rfl]
  exact ⟨accepted,accepted_collides onStack onStack rfl rfl short short known found (by simp only [secretUser,newUser]) (by simp only [secretUser]) (by decide) (by decide)
    accepted⟩

end Trollbot.Crypto
