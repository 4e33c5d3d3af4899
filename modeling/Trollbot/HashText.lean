import Trollbot.User

-- create_hash of the crypto module, and what its text tells of the digest.
namespace Trollbot.Crypto

abbrev Digest := { bytes : List UInt8 // bytes.length = 64 }

def hexDigit (n : Nat) : Char := ("0123456789abcdef".toList[n]?).getD ' '

-- The halves of a byte that "%0x" prints: the zero flag has no width to fill.
def shown (byte : UInt8) : List Nat := if byte.toNat < 16 then [byte.toNat] else [byte.toNat / 16,byte.toNat % 16]

def hex (byte : UInt8) : Str := (shown byte).map hexDigit

-- The bytes one after the other, in an allocation of 64*2+1 characters.
def hashString (digest : Digest) : Option Str := digest.val.foldlM (fun hash byte => strcat 129 hash (hex byte)) []

-- None is a null pointer.
def createHash (sha512 : Str → Digest) (pass hashType : Str) : Option Str :=
  if tstrcasecmp hashType "sha512".toList = 0 then hashString (sha512 pass) else none

-- The text of a digest stands for it, and a login with `q` where the password was set to `p`.
structure Identifies (sha512 : Str → Digest) (p q : Str) : Prop where
  text : ∀ hashType, tstrcasecmp hashType "sha512".toList = 0 →
    createHash sha512 p hashType = createHash sha512 q hashType → sha512 p = sha512 q
  accepted : ∀ hashType (users : List User) handle user, tstrcasecmp hashType "sha512".toList = 0 →
    users.find? (fun user => handle = user.username) = some user → user.passhash = createHash sha512 p hashType →
    user.hashType = some hashType → q ≠ [] → q ≠ ['-'] →
    eggPasswdok (some (createHash sha512)) users handle q = some (decide (sha512 p = sha512 q))
  fits : ∀ pass ∈ [p,q], ∃ hash, hashString (sha512 pass) = some hash ∧ hash.length ≤ 128

-- The halves of a digest, without the high one of a byte where it is zero.
def digits (digest : Digest) : List Nat := digest.val.flatMap shown

-- The bytes with one digit are at the same places.
def Aligned (first second : Digest) : Prop := first.val.map (fun byte => decide (byte.toNat < 16)) = second.val.map (fun byte => decide (byte.toNat < 16))

theorem hexDigit_inj (small : m < 16) (small' : n < 16) (same : hexDigit m = hexDigit n) : m = n := by
  have all : ∀ m n : Fin 16, hexDigit m.val = hexDigit n.val → m = n := by decide
  exact congrArg Fin.val (all ⟨m,small⟩ ⟨n,small'⟩ same)

theorem shown_small (byte : UInt8) : ∀ n ∈ shown byte, n < 16 := by
  have bound := byte.toNat_lt
  intro n member
  unfold shown at member
  split at member
  · simp only [List.mem_singleton] at member
    omega
  · simp only [List.mem_cons,List.not_mem_nil,or_false] at member
    omega

theorem shown_length (byte : UInt8) : (shown byte).length ≤ 2 := by
  unfold shown
  split <;> simp

theorem map_inj {first second : List Nat} (small : ∀ n ∈ first, n < 16) (small' : ∀ n ∈ second, n < 16)
    (same : first.map hexDigit = second.map hexDigit) : first = second := by
  induction first generalizing second with
  | nil =>
      cases second with
      | nil => rfl
      | cons n second => cases same
  | cons m first ih =>
      cases second with
      | nil => cases same
      | cons n second =>
          obtain ⟨here,later⟩ := List.cons.inj same
          have head : m = n := hexDigit_inj (small m (by simp)) (small' n (by simp)) here
          have tail := ih (fun k member => small k (by simp [member])) (fun k member => small' k (by simp [member])) later
          rw [head,tail]

-- With its size known, the digits of a byte can be read off the front.
theorem shown_reads {first second : List UInt8}
    (aligned : first.map (fun byte => decide (byte.toNat < 16)) = second.map (fun byte => decide (byte.toNat < 16)))
    (same : first.flatMap shown = second.flatMap shown) : first = second := by
  induction first generalizing second with
  | nil =>
      cases second with
      | nil => rfl
      | cons b second => cases aligned
  | cons a first ih =>
      cases second with
      | nil => cases aligned
      | cons b second =>
          obtain ⟨size,sizes⟩ := List.cons.inj aligned
          simp only [List.flatMap_cons] at same
          by_cases small : a.toNat < 16
          · have small' : b.toNat < 16 := by simpa [small] using size.symm
            simp only [shown,small,small',if_true,List.cons_append,List.nil_append,List.cons.injEq] at same
            rw [UInt8.toNat_inj.mp same.1,ih sizes same.2]
          · have large : ¬b.toNat < 16 := by simpa [small] using size.symm
            simp only [shown,small,large,if_false,List.cons_append,List.nil_append,List.cons.injEq] at same
            have whole : a.toNat = b.toNat := by omega
            rw [UInt8.toNat_inj.mp whole,ih sizes same.2.2]

theorem appended {bytes : List UInt8} {hash : Str} (room : hash.length + 2 * bytes.length ≤ 128) :
    bytes.foldlM (fun hash byte => strcat 129 hash (hex byte)) hash = some (hash ++ (bytes.flatMap shown).map hexDigit) ∧
      (hash ++ (bytes.flatMap shown).map hexDigit).length ≤ 128 := by
  induction bytes generalizing hash with
  | nil => simpa using room
  | cons byte bytes ih =>
      have short := shown_length byte
      simp only [List.length_cons] at room
      have one : strcat 129 hash (hex byte) = some (hash ++ hex byte) := by
        apply strcat_iff.mpr
        simp only [hex,List.length_map,and_true]
        omega
      have later := @ih (hash ++ hex byte) (by simp only [hex,List.length_append,List.length_map]; omega)
      simp only [List.foldlM_cons,one,Option.bind_eq_bind,Option.bind_some]
      simpa [hex] using later

theorem hashString_digits (digest : Digest) :
    hashString digest = some ((digits digest).map hexDigit) ∧ ((digits digest).map hexDigit).length ≤ 128 := by
  have written := @appended digest.val [] (by simp [digest.property])
  simpa [hashString,digits] using written

theorem texts_same (first second : Digest) : hashString first = hashString second ↔ digits first = digits second := by
  rw [(hashString_digits first).1,(hashString_digits second).1,Option.some.injEq]
  constructor
  · apply map_inj
    · intro n member
      obtain ⟨byte,-,inside⟩ := List.mem_flatMap.mp member
      exact shown_small byte n inside
    · intro n member
      obtain ⟨byte,-,inside⟩ := List.mem_flatMap.mp member
      exact shown_small byte n inside
  · intro same
    rw [same]

theorem aligned_digits (aligned : Aligned first second) (same : digits first = digits second) : first = second :=
  Subtype.ext (shown_reads aligned same)

section
variable {sha512 : Str → Digest} {hashType : Str}

theorem hash_known (known : tstrcasecmp hashType "sha512".toList = 0) (pass : Str) :
    createHash sha512 pass hashType = hashString (sha512 pass) := if_pos known

theorem compared {user : User} {p q : Str} (known : tstrcasecmp hashType "sha512".toList = 0)
    (found : users.find? (fun user => handle = user.username) = some user) (stored : user.passhash = createHash sha512 p hashType)
    (typed : user.hashType = some hashType) (some' : q ≠ []) (dashless : q ≠ ['-']) :
    eggPasswdok (some (createHash sha512)) users handle q = some (decide (digits (sha512 p) = digits (sha512 q))) := by
  obtain ⟨one,-⟩ := hashString_digits (sha512 p)
  obtain ⟨two,-⟩ := hashString_digits (sha512 q)
  have plain : ¬(q = [] ∨ q = ['-']) := by simp [some',dashless]
  have same : ((digits (sha512 p)).map hexDigit == (digits (sha512 q)).map hexDigit) = decide (digits (sha512 p) = digits (sha512 q)) := by
    rw [Bool.eq_iff_iff,beq_iff_eq,decide_eq_true_iff,← texts_same,one,two,Option.some.injEq]
  simp only [eggPasswdok,found,if_neg plain,typed,eggMakepasswd,Option.bind_some,hash_known known,two,stored,one,Option.map_some,same]

end

-- For any function in the place of SHA-512.
theorem hash_identifies (sha512 : Str → Digest) (p q : Str) : Identifies sha512 p q ↔
    digits (sha512 p) ≠ digits (sha512 q) ∨ Aligned (sha512 p) (sha512 q) := by
  have known : tstrcasecmp "sha512".toList "sha512".toList = 0 := by decide
  constructor
  · intro identifies
    by_cases same : digits (sha512 p) = digits (sha512 q)
    · have text := (texts_same (sha512 p) (sha512 q)).mpr same
      have digest : sha512 p = sha512 q := by
        apply identifies.text _ known
        rw [hash_known known,hash_known known,text]
      refine .inr ?_
      rw [Aligned,digest]
    · exact .inl same
  · intro condition
    have exact' : digits (sha512 p) = digits (sha512 q) ↔ sha512 p = sha512 q := by
      refine ⟨?_,fun same => by rw [same]⟩
      intro same
      exact aligned_digits (condition.resolve_left (fun differ => differ same)) same
    refine ⟨?_,?_,?_⟩
    · intro hashType known text
      rw [hash_known known,hash_known known] at text
      exact exact'.mp ((texts_same _ _).mp text)
    · intro hashType users handle user known found stored typed some' dashless
      rw [compared known found stored typed some' dashless]
      simp only [exact']
    · intro pass _
      obtain ⟨text,short⟩ := hashString_digits (sha512 pass)
      exact ⟨_,text,short⟩

-- Two digests that begin with 01 23 and 12 03.
def early : Digest := ⟨1 :: 35 :: List.replicate 62 0,by simp⟩
def late : Digest := ⟨18 :: 3 :: List.replicate 62 0,by simp⟩

def collidingHash (pass : Str) : Digest := if pass = ['a'] then early else late

theorem other_password_accepted : ¬Identifies collidingHash ['a'] ['b'] := by
  intro identifies
  have same : digits early = digits late := rfl
  have text := (texts_same early late).mpr same
  have digest : early = late := identifies.text "sha512".toList (by decide) text
  revert digest
  decide

end Trollbot.Crypto
