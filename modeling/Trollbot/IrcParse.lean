import Trollbot.Util

namespace Trollbot.IrcParse
open CBuffer

structure IrcPrefix where
  servername : Option Str
  nick : Option Str
  user : Option Str
  host : Option Str
deriving DecidableEq

-- The token arrays keep their cells: a reader stops at the first null pointer.
structure IrcData where
  pre : Option IrcPrefix
  command : Str
  cParams : Option Slots
  cParamsStr : Option Str
  rest : Option Slots
  restStr : Option Str
deriving DecidableEq

-- Reading on to a character that the loop never checks to be there: past the terminator the read
-- faults.
def takeTo (stop : Char) : Str → Option (Str × Str)
  | [] => none
  | c :: s => if c = stop then some ([],s) else (takeTo stop s).map (fun parts => (c :: parts.1,parts.2))

-- A token array while it is filled: the cells, the slot being written, the recorded size and the
-- copy of the whole text.
structure Tokens where
  slots : Slots
  bufindex : Nat
  bufsize : Nat
  str : Str

def Tokens.new : Tokens := ⟨some (some []) :: List.replicate 9 (some none),0,10,[]⟩

-- A space: the next slot is taken, and 11 slots beyond the taken ones are asked for when the last
-- one is reached.
def Tokens.advance (t : Tokens) : Option Tokens :=
  let bufindex := t.bufindex + 1
  if bufindex + 1 = t.bufsize then do
    let (slots,bufsize) ← tsrealloc0 t.slots (bufindex + 10 + 1) t.bufsize
    some ⟨slots,bufindex,bufsize,t.str ++ [' ']⟩
  else some ⟨t.slots,bufindex,t.bufsize,t.str ++ [' ']⟩

-- A new word in the taken slot, and a null pointer after it.
def Tokens.openWord (t : Tokens) : Option Tokens := do
  let slots ← write t.slots t.bufindex [some (some []),some none]
  some { t with slots := slots }

def Tokens.put (t : Tokens) (c : Char) : Option Tokens :=
  match t.slots[t.bufindex]? with
  | some (some (some word)) =>
    some { t with slots := t.slots.set t.bufindex (some (some (word ++ [c]))), str := t.str ++ [c] }
  | _ => none

-- The two loops over the parameters and over the trailing text. `middle` marks the first one, which
-- stops at a ':' after a space, and which does not look for the terminator after a space. `last` is
-- the character before the text.
@[simp] def tokenize (middle : Bool) : Char → Str → Option Tokens → Option (Option Tokens × Str)
  | _,[],t => some (t,[])
  | last,c :: s,t =>
    if c = '\n' ∨ c = '\r' ∨ (middle ∧ c = ':' ∧ last = ' ') then some (t,c :: s) else
    let t := t.getD .new
    if c = ' ' then do
      let t ← t.advance
      match s with
      | [] => if middle then none else some (some t,[])
      | d :: s =>
        if d = '\r' ∨ d = '\n' ∨ (middle ∧ d = ':') then some (some t,d :: s) else do
          let t ← t.openWord
          let t ← t.put d
          tokenize middle d s (some t)
    else do
      let t ← t.put c
      tokenize middle c s (some t)

-- nick!user@host, or a servername, which is a nick when it is the network's own.
def parsePrefix (netNick tmp : Str) : Option IrcPrefix :=
  if '!' ∈ tmp then do
    let (nick,s) ← takeTo '!' tmp
    let (user,host) ← takeTo '@' s
    some ⟨none,some nick,some user,some host⟩
  else if tmp = netNick then some ⟨none,some tmp,none,none⟩
  else some ⟨some tmp,none,none,none⟩

def readPrefix (netNick buffer : Str) : Option (Option IrcPrefix × Str) :=
  match buffer with
  | ':' :: s => do
    let (tmp,s) ← takeTo ' ' s
    let pre ← parsePrefix netNick tmp
    some (some pre,s)
  | _ => some (none,buffer)

-- parse_irc_line up to its dispatch. One character between the loops is skipped as the ':'.
def decode (netNick buffer : Str) : Option IrcData := do
  let (pre,s) ← readPrefix netNick buffer
  let (command,s) ← takeTo ' ' s
  let (params,s) ← tokenize true ' ' s none
  let (rest,_) ← tokenize false ' ' s.tail none
  some ⟨pre,command,params.map (·.slots),params.map (·.str),rest.map (·.slots),rest.map (·.str)⟩

-- The strings of a token array up to its null pointer.
def words : Slots → Option (List Str)
  | [] => none
  | none :: _ => none
  | some none :: _ => some []
  | some (some word) :: rest => (words rest).map (word :: ·)

-- The words with single spaces between them.
def join : List Str → Str
  | [] => []
  | [word] => word
  | word :: rest => word ++ ' ' :: join rest

inductive Origin where
  | server (name : Str)
  | mask (nick user host : Str)

structure Message where
  origin : Option Origin
  command : Str
  middles : List Str
  trailing : Option Str

def Origin.text : Origin → Str
  | .server name => name
  | .mask nick user host => nick ++ '!' :: user ++ '@' :: host

def middleText (middles : List Str) : Str := middles.flatMap (fun middle => ' ' :: middle)

-- The text a message ends with after its last middle.
def trailer : Option Str → Str
  | none => []
  | some text => ' ' :: ':' :: text

def Message.head (msg : Message) : Str :=
  match msg.origin with
  | none => []
  | some origin => ':' :: origin.text ++ [' ']

def Message.render (msg : Message) : Str :=
  msg.head ++ msg.command ++ middleText msg.middles ++ trailer msg.trailing

def Origin.WellFormed : Origin → Prop
  | .server name => '!' ∉ name
  | .mask nick user _ => '!' ∉ nick ∧ '@' ∉ user

-- A word of the message: not empty, no space and no ':' in front.
def Word (s : Str) : Prop := s ≠ [] ∧ ' ' ∉ s ∧ s.head? ≠ some ':'

structure Message.WellFormed (msg : Message) : Prop where
  origin : ∀ origin, msg.origin = some origin → origin.WellFormed ∧ ' ' ∉ origin.text
  command : Word msg.command
  middles : ∀ middle ∈ msg.middles, Word middle
  trailing : msg.trailing ≠ some []
  parameter : msg.middles ≠ [] ∨ msg.trailing ≠ none
  clean : ∀ c ∈ msg.render, c ≠ nul ∧ c ≠ '\r' ∧ c ≠ '\n'

-- As WellFormed, but the text after the colon may be empty.
structure Message.Readable (msg : Message) : Prop where
  origin : ∀ origin, msg.origin = some origin → origin.WellFormed ∧ ' ' ∉ origin.text
  command : Word msg.command
  middles : ∀ middle ∈ msg.middles, Word middle
  parameter : msg.middles ≠ [] ∨ msg.trailing ≠ none
  clean : ∀ c ∈ msg.render, c ≠ nul ∧ c ≠ '\r' ∧ c ≠ '\n'

theorem Message.WellFormed.readable (well : Message.WellFormed msg) : msg.Readable :=
  ⟨well.origin,well.command,well.middles,well.parameter,well.clean⟩

def Origin.asPrefix (netNick : Str) : Origin → IrcPrefix
  | .server name => if name = netNick then ⟨none,some name,none,none⟩ else ⟨some name,none,none,none⟩
  | .mask nick user host => ⟨none,some nick,some user,some host⟩

-- What the parser has to have found in a message.
structure Decoded (netNick : Str) (msg : Message) (data : IrcData) : Prop where
  pre : data.pre = msg.origin.map (Origin.asPrefix netNick)
  command : data.command = msg.command
  noParams : msg.middles = [] → data.cParams = none
  params : msg.middles ≠ [] → ∃ slots, data.cParams = some slots ∧ words slots = some msg.middles
  restStr : data.restStr = msg.trailing
  noRest : msg.trailing = none → data.rest = none
  rest : ∀ text, msg.trailing = some text → ∃ slots found, data.rest = some slots ∧
    words slots = some found ∧ (join found = text ∨ join found ++ [' '] = text)

-- No cell behind the place holds a string.
def Ended (slots : Slots) (n : Nat) : Prop := ∀ i, n < i → ∀ w, slots[i]? ≠ some (some (some w))

-- What is found where the text after the colon may be empty: an empty one is as good as none.
structure Readout (netNick : Str) (msg : Message) (data : IrcData) : Prop where
  pre : data.pre = msg.origin.map (Origin.asPrefix netNick)
  command : data.command = msg.command
  noParams : msg.middles = [] → data.cParams = none
  params : msg.middles ≠ [] → ∃ slots, data.cParams = some slots ∧ words slots = some msg.middles
  ended : ∀ slots, data.cParams = some slots → Ended slots msg.middles.length
  silent : msg.trailing.getD [] = [] → data.rest = none ∧ data.restStr = none
  spoken : ∀ text, msg.trailing = some text → text ≠ [] → data.restStr = some text ∧ ∃ slots found, data.rest = some slots ∧
    words slots = some found ∧ found ≠ [] ∧ (join found = text ∨ join found ++ [' '] = text)

-- The cells behind the taken ones hold null pointers; the last cell of a grown array is left out by
-- the growth.
def Clear (i : Nat) : Prop := i < 10 ∨ i % 10 ≠ 9

instance (i : Nat) : Decidable (Clear i) := inferInstanceAs (Decidable (_ ∨ _))

def blank (i : Nat) : Option (Option Str) := if Clear i then some none else none

-- The tokens read so far are `done` and the open word `last`.
structure Holds (t : Tokens) (done : List Str) (last : Str) : Prop where
  index : t.bufindex = done.length
  closed : ∀ (i : Nat) (w : Str), done[i]? = some w → t.slots[i]? = some (some (some w))
  opened : t.slots[t.bufindex]? = some (some (some last))
  ended : t.slots[t.bufindex + 1]? = some (some none)
  fresh : ∀ i, t.bufindex + 1 < i → i < t.slots.length → t.slots[i]? = some (blank i)
  size : t.slots.length = t.bufsize
  tens : 10 ≤ t.bufsize ∧ t.bufsize % 10 = 0

-- After a space the next slot is still a null pointer.
structure Waits (t : Tokens) (done : List Str) : Prop where
  index : t.bufindex = done.length
  closed : ∀ (i : Nat) (w : Str), done[i]? = some w → t.slots[i]? = some (some (some w))
  ended : t.slots[t.bufindex]? = some (some none)
  fresh : ∀ i, t.bufindex < i → i < t.slots.length → t.slots[i]? = some (blank i)
  size : t.slots.length = t.bufsize
  tens : 10 ≤ t.bufsize ∧ t.bufsize % 10 = 0
  room : t.bufindex + 1 < t.bufsize

theorem takeTo_stop (s rest : Str) (plain : stop ∉ s) : takeTo stop (s ++ stop :: rest) = some (s,rest) := by
  induction s with
  | nil => simp [takeTo]
  | cons c s ih =>
      have differ : c ≠ stop := fun same => plain (by simp [same])
      have later := ih (fun member => plain (by simp [member]))
      simp [takeTo,differ,later]

theorem words_of_slots {slots : Slots} {found : List Str}
    (cells : ∀ (i : Nat) (w : Str), found[i]? = some w → slots[i]? = some (some (some w)))
    (ended : slots[found.length]? = some (some none)) : words slots = some found := by
  induction found generalizing slots with
  | nil =>
      cases slots with
      | nil => simp at ended
      | cons cell rest =>
          have here : cell = some none := by simpa using ended
          simp [here,words]
  | cons w found ih =>
      cases slots with
      | nil => simpa using cells 0 w rfl
      | cons cell rest =>
          have here : cell = some (some w) := by simpa using cells 0 w rfl
          have inner : words rest = some found := by
            refine ih ?_ (by simpa using ended)
            intro i v next
            simpa using cells (i+1) v (by simpa using next)
          simp [here,words,inner]

theorem words_cells {slots : Slots} (read : words slots = some found) :
    (∀ (i : Nat) (w : Str), found[i]? = some w → slots[i]? = some (some (some w))) ∧ slots[found.length]? = some (some none) := by
  induction slots generalizing found with
  | nil => cases read
  | cons cell rest ih =>
      match cell with
      | none => cases read
      | some none =>
          cases read
          exact ⟨by simp,rfl⟩
      | some (some word) =>
          obtain ⟨inner,reads,rfl⟩ := Option.map_eq_some_iff.mp read
          obtain ⟨cells,ended⟩ := ih reads
          refine ⟨?_,by simpa using ended⟩
          intro i w here
          cases i with
          | zero => simpa using here
          | succ i => simpa using cells i w (by simpa using here)

-- A word without spaces is the only word of its text.
theorem join_word (word : Word p) (spelled : join found = p ∨ join found ++ [' '] = p) : found = [p] := by
  obtain ⟨some,spaceless,-⟩ := word
  have plain : join found = p := by
    rcases spelled with same | spaced
    · exact same
    · exact absurd (by simp [← spaced]) spaceless
  cases found with
  | nil => exact absurd plain.symm some
  | cons first rest =>
      cases rest with
      | nil => exact congrArg (fun w => [w]) plain
      | cons second more =>
          refine absurd ?_ spaceless
          rw [← plain]
          simp [join]

theorem holds_words (holds : Holds t done last) : words t.slots = some (done ++ [last]) := by
  refine words_of_slots ?_ ?_
  · intro i w found
    by_cases early : i < done.length
    · exact holds.closed i w (by simpa [List.getElem?_append_left early] using found)
    · rw [List.getElem?_append_right (by omega)] at found
      have first : i = done.length := by
        have := (List.getElem?_eq_some_iff.mp found).1
        simp only [List.length_singleton] at this
        omega
      subst first
      simp only [Nat.sub_self,List.getElem?_cons_zero,Option.some.injEq] at found
      rw [← found,← holds.index]
      exact holds.opened
  · rw [List.length_append,List.length_singleton,← holds.index]
    exact holds.ended

theorem waits_words (waits : Waits t done) : words t.slots = some done :=
  words_of_slots waits.closed (by rw [← waits.index]; exact waits.ended)

theorem blank_null (i : Nat) (w : Str) : some (blank i) ≠ some (some (some w)) := by
  unfold blank
  split <;> simp

theorem holds_ended (holds : Holds t done last) : Ended t.slots (done ++ [last]).length := by
  intro i late w here
  have inside := (List.getElem?_eq_some_iff.mp here).1
  have index := holds.index
  simp only [List.length_append,List.length_singleton] at late
  rw [holds.fresh i (by omega) inside] at here
  exact blank_null i w here

theorem waits_ended (waits : Waits t done) : Ended t.slots done.length := by
  intro i late w here
  have inside := (List.getElem?_eq_some_iff.mp here).1
  have index := waits.index
  rw [waits.fresh i (by omega) inside] at here
  exact blank_null i w here

theorem new_holds : Holds .new [] [] := by
  refine ⟨rfl,by simp,rfl,rfl,?_,rfl,by decide⟩
  intro i behind inside
  have few : i < 10 := inside
  have taken : 1 < i := behind
  obtain ⟨j,rfl⟩ := Nat.exists_eq_add_of_lt taken
  rw [blank,if_pos (.inl few),Tokens.new,show 1 + j + 1 = (j + 1) + 1 by omega,List.getElem?_cons_succ,
    List.getElem?_replicate_of_lt (by omega)]

theorem put_holds (holds : Holds t done last) (c : Char) :
    ∃ next, t.put c = some next ∧ Holds next done (last ++ [c]) ∧ next.str = t.str ++ [c] := by
  have inside := (List.getElem?_eq_some_iff.mp holds.opened).1
  refine ⟨{ t with slots := t.slots.set t.bufindex (some (some (last ++ [c]))), str := t.str ++ [c] },
    by simp only [Tokens.put,holds.opened],⟨holds.index,?_,?_,?_,?_,?_,holds.tens⟩,rfl⟩
  · intro i w found
    have early := (List.getElem?_eq_some_iff.mp found).1
    have index := holds.index
    dsimp only
    rw [List.getElem?_set_ne (by omega)]
    exact holds.closed i w found
  · simp [inside]
  · dsimp only
    rw [List.getElem?_set_ne (by omega)]
    exact holds.ended
  · intro i behind small
    dsimp only at behind small ⊢
    rw [List.length_set] at small
    rw [List.getElem?_set_ne (by omega)]
    exact holds.fresh i behind small
  · simpa using holds.size

theorem advance_waits (holds : Holds t done last) :
    ∃ next, t.advance = some next ∧ Waits next (done ++ [last]) ∧ next.str = t.str ++ [' '] := by
  have inside := (List.getElem?_eq_some_iff.mp holds.ended).1
  have index := holds.index
  have size := holds.size
  have tens := holds.tens
  have closed : ∀ (i : Nat) (w : Str), (done ++ [last])[i]? = some w →
      i < t.bufindex + 1 ∧ t.slots[i]? = some (some (some w)) := by
    intro i w found
    have early := (List.getElem?_eq_some_iff.mp found).1
    simp only [List.length_append,List.length_singleton] at early
    refine ⟨by omega,?_⟩
    by_cases before : i < done.length
    · exact holds.closed i w (by simpa [List.getElem?_append_left before] using found)
    · have here : i = done.length := by omega
      subst here
      simp only [List.getElem?_append_right (Nat.le_refl _),Nat.sub_self,List.getElem?_cons_zero,
        Option.some.injEq] at found
      rw [← found,← index]
      exact holds.opened
  by_cases full : t.bufindex + 1 + 1 = t.bufsize
  · obtain ⟨grown,done'⟩ := grow_runs none t.slots (t.bufindex + 1 + 10 + 1) (show 0 < t.bufsize by omega)
    have cells : ∀ i : Nat, i < t.bufindex + 1 + 10 + 1 → grown[i]? =
        if t.bufsize ≤ i + 1 ∧ i + 1 < t.bufindex + 1 + 10 + 1 then some (some none)
        else if i < t.slots.length then t.slots[i]? else some none := fun i small => grow_get done' small
    refine ⟨⟨grown,t.bufindex + 1,t.bufindex + 1 + 10 + 1,t.str ++ [' ']⟩,?_,⟨?_,?_,?_,?_,?_,?_,?_⟩,rfl⟩
    · simp only [Tokens.advance,full,if_true,tsrealloc0,done',Option.map_some,Option.bind_eq_bind,Option.bind_some]
    · simp [index]
    · intro i w found
      obtain ⟨early,cell⟩ := closed i w found
      rw [cells i (by omega),if_neg (by omega),if_pos (by omega)]
      exact cell
    · rw [cells _ (by dsimp only; omega),if_pos (by dsimp only; omega)]
    · intro i behind small
      dsimp only at behind small
      rw [grow_length done'] at small
      rw [cells i small,blank]
      by_cases last : i + 1 < t.bufindex + 1 + 10 + 1
      · rw [if_pos (by omega),if_pos (.inr (by omega))]
      · rw [if_neg (by omega),if_neg (by omega),if_neg (fun clear => by rcases clear with few | many <;> omega)]
    · exact grow_length done'
    · dsimp only
      omega
    · dsimp only
      omega
  · refine ⟨⟨t.slots,t.bufindex + 1,t.bufsize,t.str ++ [' ']⟩,?_,⟨?_,?_,holds.ended,holds.fresh,size,tens,?_⟩,rfl⟩
    · simp only [Tokens.advance,full,if_false]
    · simp [index]
    · exact fun i w found => (closed i w found).2
    · dsimp only
      omega

theorem open_holds (waits : Waits t done) :
    ∃ next, t.openWord = some next ∧ Holds next done [] ∧ next.str = t.str := by
  have size := waits.size
  have room := waits.room
  have index := waits.index
  obtain ⟨slots,written⟩ := write_fits t.slots t.bufindex [some (some []),some none] (by simp; omega)
  have cells : ∀ i : Nat, slots[i]? = if t.bufindex ≤ i ∧ i < t.bufindex + 2 then
      [some (some []),some none][i - t.bufindex]? else t.slots[i]? := fun i => write_get written
  refine ⟨{ t with slots := slots },by simp [Tokens.openWord,written],⟨index,?_,?_,?_,?_,?_,waits.tens⟩,rfl⟩
  · intro i w found
    have early := (List.getElem?_eq_some_iff.mp found).1
    rw [cells,if_neg (by omega)]
    exact waits.closed i w found
  · rw [cells,if_pos (by dsimp only; omega)]
    simp
  · rw [cells,if_pos (by dsimp only; omega)]
    simp
  · intro i behind small
    dsimp only at behind small
    rw [write_length written] at small
    rw [cells,if_neg (by omega)]
    exact waits.fresh i (by omega) small
  · rw [← size]
    exact write_length written

theorem join_next (done : List Str) (some : done ≠ []) (w : Str) : join (done ++ [w]) = join done ++ ' ' :: w := by
  induction done with
  | nil => exact absurd rfl some
  | cons first rest ih =>
      cases rest with
      | nil => rfl
      | cons second rest =>
          have later := ih (by simp)
          simp only [List.cons_append] at later ⊢
          simp only [join,later,List.append_assoc,List.cons_append]

theorem join_put (done : List Str) (w tail : Str) : join (done ++ [w ++ tail]) = join (done ++ [w]) ++ tail := by
  cases done with
  | nil => rfl
  | cons first rest =>
      rw [join_next (first :: rest) (by simp),join_next (first :: rest) (by simp),List.append_assoc,List.cons_append]

-- A character that neither ends the text nor starts a word.
structure Inner (middle : Bool) (last c : Char) : Prop where
  feed : c ≠ '\n'
  carriage : c ≠ '\r'
  space : c ≠ ' '
  colon : ¬(middle = true ∧ c = ':' ∧ last = ' ')

theorem tokenize_inner (inner : Inner middle last c) (t : Option Tokens) (holds : Holds (t.getD .new) done w) :
    ∃ next, (∀ s, tokenize middle last (c :: s) t = tokenize middle c s (some next)) ∧
      Holds next done (w ++ [c]) ∧ next.str = (t.getD .new).str ++ [c] := by
  obtain ⟨next,put,after,str⟩ := put_holds holds c
  refine ⟨next,?_,after,str⟩
  intro s
  have goes : ¬(c = '\n' ∨ c = '\r' ∨ (middle = true ∧ c = ':' ∧ last = ' ')) := by
    simpa using ⟨inner.feed,inner.carriage,by simpa using inner.colon⟩
  simp only [tokenize,goes,inner.space,if_false,put,Option.bind_eq_bind,Option.bind_some]

theorem tokenize_word (middle : Bool) (word : ∀ c ∈ v, c ≠ ' ' ∧ c ≠ '\r' ∧ c ≠ '\n') (before : last ≠ ' ')
    (holds : Holds t done w) :
    ∃ next after, (∀ s, tokenize middle last (v ++ s) (some t) = tokenize middle after s (some next)) ∧ after ≠ ' ' ∧
      Holds next done (w ++ v) := by
  induction v generalizing last t w with
  | nil => exact ⟨t,last,fun _ => rfl,before,by simpa using holds⟩
  | cons c v ih =>
      obtain ⟨space,carriage,feed⟩ := word c (by simp)
      obtain ⟨next,step,after,-⟩ := tokenize_inner
        (show Inner middle last c from ⟨feed,carriage,space,fun bad => before bad.2.2⟩) (some t) holds
      obtain ⟨final,stop,more,differs,ends⟩ := ih (fun d member => word d (by simp [member])) space after
      exact ⟨final,stop,fun s => (step (v ++ s)).trans (more s),differs,by simpa using ends⟩

-- No line end in the text.
def Plain (s : Str) : Prop := ∀ c ∈ s, c ≠ '\r' ∧ c ≠ '\n'

theorem word_tail (spaceless : ' ' ∉ d :: tail) (plain : Plain (d :: tail)) :
    ∀ c ∈ tail, c ≠ ' ' ∧ c ≠ '\r' ∧ c ≠ '\n' := by
  intro c member
  refine ⟨?_,plain c (by simp [member])⟩
  rintro rfl
  exact spaceless (by simp [member])

-- A space inside the parameters, before a word.
theorem tokenize_space (middle : Bool) (last : Char) (holds : Holds t done w) (d : Char) (plain : Plain [d])
    (differs : ¬(middle = true ∧ d = ':')) :
    ∃ next, (∀ s, tokenize middle last (' ' :: d :: s) (some t) = tokenize middle d s (some next)) ∧
      Holds next (done ++ [w]) [d] ∧ next.str = t.str ++ [' ',d] := by
  obtain ⟨moved,advanced,waits,moveStr⟩ := advance_waits holds
  obtain ⟨opened,opens,fresh,openStr⟩ := open_holds waits
  obtain ⟨next,put,after,putStr⟩ := put_holds fresh d
  refine ⟨next,?_,after,?_⟩
  · intro s
    have stays : ¬(d = '\r' ∨ d = '\n' ∨ (middle = true ∧ d = ':')) := by
      obtain ⟨carriage,feed⟩ := plain d (by simp)
      simpa [carriage,feed] using differs
    have goes : ¬(' ' = '\n' ∨ ' ' = '\r' ∨ (middle = true ∧ ' ' = ':' ∧ last = ' ')) := by simp
    simp only [tokenize,goes,stays,if_false,if_true,Option.getD_some,advanced,opens,put,Option.bind_eq_bind,
      Option.bind_some]
  · rw [putStr,openStr,moveStr]
    simp

-- A word of the parameters, from the space in front of it.
theorem tokenize_next (last : Char) (word : Word v) (plain : Plain v) (holds : Holds t done w) :
    ∃ next after, (∀ s, tokenize true last (' ' :: v ++ s) (some t) = tokenize true after s (some next)) ∧ after ≠ ' ' ∧
      Holds next (done ++ [w]) v := by
  obtain ⟨some',spaceless,head⟩ := word
  obtain ⟨d,tail,rfl⟩ := List.exists_cons_of_ne_nil some'
  have plainHead : Plain [d] := fun c member => plain c (by simp_all)
  obtain ⟨opened,step,fresh,-⟩ := tokenize_space true last holds d plainHead (by simpa using head)
  have notSpace : d ≠ ' ' := fun same => spaceless (by simp [same])
  obtain ⟨read,after,more,differs,reads⟩ := tokenize_word true (word_tail spaceless plain) notSpace fresh
  exact ⟨read,after,fun s => (step (tail ++ s)).trans (more s),differs,reads⟩

-- Words of the parameters, each with a space in front.
theorem tokenize_over (middles : List Str) (well : ∀ middle ∈ middles, Word middle ∧ Plain middle) (before : last ≠ ' ')
    (holds : Holds t done w) :
    ∃ next after closed v, (∀ s, tokenize true last (middleText middles ++ s) (some t) = tokenize true after s (some next)) ∧
      after ≠ ' ' ∧ Holds next closed v ∧ closed ++ [v] = done ++ [w] ++ middles := by
  induction middles generalizing last t done w with
  | nil => exact ⟨t,last,done,w,fun _ => rfl,before,holds,by simp⟩
  | cons first rest ih =>
      obtain ⟨word,plain⟩ := well first (by simp)
      obtain ⟨read,after,step,differs,reads⟩ := tokenize_next last word plain holds
      obtain ⟨next,final,closed,v,more,ends,held,whole⟩ := ih (fun middle member => well middle (by simp [member])) differs reads
      refine ⟨next,final,closed,v,?_,ends,held,by simpa using whole⟩
      intro s
      have text' : middleText (first :: rest) ++ s = ' ' :: first ++ (middleText rest ++ s) := by simp [middleText]
      rw [text',step,more]

-- The parameters of a message, from the first character of the first one.
theorem tokenize_start (middles : List Str) (some' : middles ≠ []) (well : ∀ middle ∈ middles, Word middle ∧ Plain middle) :
    ∃ next after closed v, (∀ s, tokenize true ' ' ((middleText middles ++ s).tail) none = tokenize true after s (some next)) ∧
      after ≠ ' ' ∧ Holds next closed v ∧ closed ++ [v] = middles := by
  obtain ⟨first,rest,rfl⟩ := List.exists_cons_of_ne_nil some'
  obtain ⟨⟨some,spaceless,head⟩,plain⟩ := well first (by simp)
  obtain ⟨d,tail,rfl⟩ := List.exists_cons_of_ne_nil some
  have notSpace : d ≠ ' ' := fun same => spaceless (by simp [same])
  obtain ⟨carriage,feed⟩ := plain d (by simp)
  have inner : Inner true ' ' d := ⟨feed,carriage,notSpace,by simpa using head⟩
  obtain ⟨opened,step,fresh,-⟩ := tokenize_inner inner none new_holds
  obtain ⟨read,after,more,differs,reads⟩ := tokenize_word true (word_tail spaceless plain) notSpace fresh
  obtain ⟨next,final,closed,v,others,ends,held,whole⟩ := tokenize_over rest (fun middle member => well middle (by simp [member]))
    differs reads
  refine ⟨next,final,closed,v,?_,ends,held,by simpa using whole⟩
  intro s
  have text' : (middleText ((d :: tail) :: rest) ++ s).tail = d :: (tail ++ (middleText rest ++ s)) := by simp [middleText]
  rw [text',step,more,others]

theorem tokenize_params (middles : List Str) (some' : middles ≠ [])
    (well : ∀ middle ∈ middles, Word middle ∧ Plain middle) (text : Option Str) :
    ∃ next, tokenize true ' ' ((middleText middles ++ trailer text).tail) none =
        some (some next,(trailer text).tail) ∧ words next.slots = some middles ∧ Ended next.slots middles.length := by
  obtain ⟨read,after,closed,v,step,-,held,rfl⟩ := tokenize_start middles some' well
  rw [step]
  cases text with
  | none => exact ⟨read,rfl,holds_words held,holds_ended held⟩
  | some text =>
      obtain ⟨moved,advanced,waits,-⟩ := advance_waits held
      refine ⟨moved,?_,waits_words waits,waits_ended waits⟩
      simp [trailer,tokenize,advanced]

-- The words read so far spell the text read so far; one space at the very end opens no word.
theorem tokenize_rest (n : Nat) (s : Str) (short : s.length ≤ n) (plain : Plain s) (holds : Holds t done w)
    (spelled : join (done ++ [w]) = t.str) :
    ∃ next found, tokenize false last s (some t) = some (some next,[]) ∧ next.str = t.str ++ s ∧
      words next.slots = some found ∧ found ≠ [] ∧ (join found = next.str ∨ join found ++ [' '] = next.str) := by
  induction n generalizing s t done w last with
  | zero =>
      obtain rfl : s = [] := List.eq_nil_of_length_eq_zero (by omega)
      exact ⟨t,done ++ [w],by simp [tokenize],by simp,holds_words holds,by simp,.inl spelled⟩
  | succ n ih =>
      cases s with
      | nil => exact ⟨t,done ++ [w],by simp [tokenize],by simp,holds_words holds,by simp,.inl spelled⟩
      | cons c s =>
          simp only [List.length_cons] at short
          by_cases space : c = ' '
          · subst space
            cases s with
            | nil =>
                obtain ⟨moved,advanced,waits,moveStr⟩ := advance_waits holds
                refine ⟨moved,done ++ [w],by simp [tokenize,advanced],moveStr,waits_words waits,by simp,.inr ?_⟩
                rw [spelled,moveStr]
            | cons d s =>
                simp only [List.length_cons] at short
                obtain ⟨opened,step,fresh,str⟩ := tokenize_space false last holds d
                  (fun c member => plain c (by simp_all)) (by simp)
                have again : join (done ++ [w] ++ [[d]]) = opened.str := by
                  rw [join_next _ (by simp),spelled,str]
                obtain ⟨next,found,more,whole,reads,some',spells⟩ := ih s (by omega)
                  (fun c member => plain c (by simp [member])) fresh again
                exact ⟨next,found,(step s).trans more,by rw [whole,str]; simp,reads,some',spells⟩
          · obtain ⟨carriage,feed⟩ := plain c (by simp)
            have inner : Inner false last c := ⟨feed,carriage,space,by simp⟩
            obtain ⟨opened,step,fresh,str⟩ := tokenize_inner inner (some t) holds
            have again : join (done ++ [w ++ [c]]) = opened.str := by
              rw [join_put,spelled,str]
              rfl
            obtain ⟨next,found,more,whole,reads,some',spells⟩ := ih s (by omega)
              (fun d member => plain d (by simp [member])) fresh again
            exact ⟨next,found,(step s).trans more,by rw [whole,str]; simp,reads,some',spells⟩

theorem tokenize_text (text : Str) (some' : text ≠ []) (plain : Plain text) :
    ∃ next found, tokenize false ' ' text none = some (some next,[]) ∧ next.str = text ∧
      words next.slots = some found ∧ found ≠ [] ∧ (join found = text ∨ join found ++ [' '] = text) := by
  cases text with
  | nil => exact absurd rfl some'
  | cons c s =>
      obtain ⟨next,found,read,whole,reads,many,spells⟩ : ∃ next found, tokenize false ' ' (c :: s) (some .new) = some (some next,[]) ∧
          next.str = Tokens.new.str ++ c :: s ∧ words next.slots = some found ∧ found ≠ [] ∧
          (join found = next.str ∨ join found ++ [' '] = next.str) :=
        tokenize_rest _ (c :: s) (Nat.le_refl _) plain new_holds rfl
      have same : tokenize false ' ' (c :: s) none = tokenize false ' ' (c :: s) (some .new) := by
        simp only [tokenize,Option.getD_none,Option.getD_some,plain c (by simp),false_or,Bool.false_eq_true,false_and,
          if_false]
      have text' : next.str = c :: s := whole
      exact ⟨next,found,same.trans read,text',reads,many,by rw [text'] at spells; exact spells⟩

-- The words that are closed stay, and so does the open one before a space.
theorem tokenize_kept (n : Nat) (s : Str) (short : s.length ≤ n) (plain : Plain s) (holds : Holds t done w)
    (read : tokenize false last s (some t) = some (some next,[])) (reads : words next.slots = some found) :
    done <+: found ∧ ((∀ c, s.head? = some c → c = ' ') → done ++ [w] <+: found) := by
  induction n generalizing s t done w last with
  | zero =>
      obtain rfl : s = [] := List.eq_nil_of_length_eq_zero (by omega)
      simp only [tokenize,Option.some.injEq,Prod.mk.injEq,and_true] at read
      subst read
      obtain rfl := Option.some.inj (reads.symm.trans (holds_words holds))
      exact ⟨List.prefix_append _ _,fun _ => List.prefix_refl _⟩
  | succ n ih =>
      cases s with
      | nil =>
          simp only [tokenize,Option.some.injEq,Prod.mk.injEq,and_true] at read
          subst read
          obtain rfl := Option.some.inj (reads.symm.trans (holds_words holds))
          exact ⟨List.prefix_append _ _,fun _ => List.prefix_refl _⟩
      | cons c s =>
          simp only [List.length_cons] at short
          by_cases space : c = ' '
          · subst space
            have front : done ++ [w] <+: found := by
              cases s with
              | nil =>
                  obtain ⟨moved,advanced,waits,-⟩ := advance_waits holds
                  simp [tokenize,advanced] at read
                  subst read
                  obtain rfl := Option.some.inj (reads.symm.trans (waits_words waits))
                  exact List.prefix_refl _
              | cons d s =>
                  simp only [List.length_cons] at short
                  obtain ⟨opened,step,fresh,-⟩ := tokenize_space false last holds d (fun c member => plain c (by simp_all)) (by simp)
                  rw [step] at read
                  exact (ih s (by omega) (fun c member => plain c (by simp [member])) fresh read).1
            exact ⟨(List.prefix_append _ _).trans front,fun _ => front⟩
          · obtain ⟨carriage,feed⟩ := plain c (by simp)
            have inner : Inner false last c := ⟨feed,carriage,space,by simp⟩
            obtain ⟨opened,step,fresh,-⟩ := tokenize_inner inner (some t) holds
            rw [step] at read
            exact ⟨(ih s (by omega) (fun d member => plain d (by simp [member])) fresh read).1,fun spaced => absurd (spaced c rfl) space⟩

theorem takeWhile_holds {text : Str} (member : c ∈ text.takeWhile (fun c => decide (c ≠ ' '))) : c ≠ ' ' := by
  have all := List.all_takeWhile (p := fun c => decide (c ≠ ' ')) (l := text)
  simpa using List.all_eq_true.mp all c member

-- The first word is what comes before the first space.
theorem tokenize_first (text : Str) (some' : text ≠ []) (plain : Plain text) (read : tokenize false ' ' text none = some (some next,[]))
    (reads : words next.slots = some found) : found.head? = some (text.takeWhile (fun c => c ≠ ' ')) := by
  have split := List.takeWhile_append_dropWhile (p := fun c => decide (c ≠ ' ')) (l := text)
  have spaced : ∀ c, (text.dropWhile (fun c => decide (c ≠ ' '))).head? = some c → c = ' ' := by
    intro c first
    have stops := List.head?_dropWhile_not (fun c => decide (c ≠ ' ')) text
    rw [first] at stops
    simpa using stops
  have letters : ∀ c ∈ text.takeWhile (fun c => decide (c ≠ ' ')), c ≠ ' ' ∧ c ≠ '\r' ∧ c ≠ '\n' := by
    intro c member
    have kept : c ∈ text := List.takeWhile_subset _ member
    exact ⟨takeWhile_holds member,plain c kept⟩
  have later : Plain (text.dropWhile (fun c => decide (c ≠ ' '))) := fun c member => plain c (List.dropWhile_subset _ member)
  cases word : text.takeWhile (fun c => decide (c ≠ ' ')) with
  | nil =>
      rw [word,List.nil_append] at split
      have same : tokenize false ' ' text none = tokenize false ' ' text (some .new) := by
        cases text with
        | nil => exact absurd rfl some'
        | cons c s =>
            obtain ⟨carriage,feed⟩ := plain c (by simp)
            simp only [tokenize,Option.getD_none,Option.getD_some,carriage,feed,false_or,Bool.false_eq_true,false_and,if_false]
      rw [same,← split] at read
      have front := (tokenize_kept _ _ (Nat.le_refl _) later new_holds read reads).2 spaced
      obtain ⟨rest,rfl⟩ := front
      rfl
  | cons c v =>
      rw [word] at split letters
      rw [← split,List.cons_append] at read
      obtain ⟨space,carriage,feed⟩ := letters c (by simp)
      obtain ⟨opened,step,fresh,-⟩ := tokenize_inner
        (show Inner false ' ' c from ⟨feed,carriage,space,by simp⟩) none new_holds
      obtain ⟨ended,after,more,-,holds⟩ := tokenize_word false
        (v := v) (fun d member => letters d (by simp [member])) space fresh
      rw [step,more] at read
      have front := (tokenize_kept _ _ (Nat.le_refl _) later holds read reads).2 spaced
      obtain ⟨rest,rfl⟩ := front
      rfl

-- Words with single spaces between them are read back as they are, also before a space at the end.
theorem tokenize_words (found : List Str) (well : ∀ w ∈ found, w ≠ [] ∧ ' ' ∉ w ∧ Plain w) (gap : Bool) (before : last ≠ ' ')
    (holds : Holds t done w) :
    ∃ next, tokenize false last (middleText found ++ if gap then [' '] else []) (some t) = some (some next,[]) ∧
      words next.slots = some (done ++ [w] ++ found) := by
  induction found generalizing last t done w with
  | nil =>
      cases gap with
      | false => exact ⟨t,by simp [middleText,tokenize],by simpa using holds_words holds⟩
      | true =>
          obtain ⟨moved,advanced,waits,-⟩ := advance_waits holds
          exact ⟨moved,by simp [middleText,tokenize,advanced],by simpa using waits_words waits⟩
  | cons first rest ih =>
      obtain ⟨some,spaceless,plain⟩ := well first (by simp)
      cases first with
      | nil => exact absurd rfl some
      | cons d tail =>
          have plainHead : Plain [d] := fun c member => plain c (by simp_all)
          obtain ⟨opened,step,fresh,-⟩ := tokenize_space false last holds d plainHead (by simp)
          have notSpace : d ≠ ' ' := fun same => spaceless (by simp [same])
          obtain ⟨read,after,more,differs,reads⟩ := tokenize_word false (word_tail spaceless plain) notSpace fresh
          obtain ⟨next,rest',found⟩ := ih (fun v member => well v (by simp [member])) differs reads
          refine ⟨next,?_,by simpa using found⟩
          have text' : middleText ((d :: tail) :: rest) ++ (if gap then [' '] else []) =
              ' ' :: d :: (tail ++ (middleText rest ++ if gap then [' '] else [])) := by
            simp [middleText]
          rw [text',step,more,rest']

theorem join_middles (first : Str) (rest : List Str) : join (first :: rest) = first ++ middleText rest := by
  induction rest generalizing first with
  | nil => simp [join,middleText]
  | cons second more ih => simp [join,ih,middleText]

theorem tokenize_join (found : List Str) (some' : found ≠ []) (well : ∀ w ∈ found, w ≠ [] ∧ ' ' ∉ w ∧ Plain w) (gap : Bool) :
    ∃ next, tokenize false ' ' (join found ++ if gap then [' '] else []) none = some (some next,[]) ∧
      words next.slots = some found := by
  obtain ⟨first,rest,rfl⟩ := List.exists_cons_of_ne_nil some'
  obtain ⟨some,spaceless,plain⟩ := well first (by simp)
  rw [join_middles]
  cases first with
  | nil => exact absurd rfl some
  | cons d tail =>
      have notSpace : d ≠ ' ' := fun same => spaceless (by simp [same])
      obtain ⟨carriage,feed⟩ := plain d (by simp)
      have inner : Inner false ' ' d := ⟨feed,carriage,notSpace,by simp⟩
      obtain ⟨opened,step,fresh,-⟩ := tokenize_inner inner none new_holds
      obtain ⟨read,after,more,differs,reads⟩ := tokenize_word false (word_tail spaceless plain) notSpace fresh
      obtain ⟨next,rest',found⟩ := tokenize_words rest (fun w member => well w (by simp [member])) gap differs reads
      refine ⟨next,?_,by simpa using found⟩
      rw [List.append_assoc,List.cons_append,step,more,rest']

theorem parsePrefix_origin (netNick : Str) (origin : Origin) (well : origin.WellFormed) :
    parsePrefix netNick origin.text = some (origin.asPrefix netNick) := by
  cases origin with
  | server name =>
      have plain : '!' ∉ name := well
      by_cases own : name = netNick
      · subst own
        simp [parsePrefix,Origin.text,plain,Origin.asPrefix]
      · simp [parsePrefix,Origin.text,plain,Origin.asPrefix,own]
  | mask nick user host =>
      obtain ⟨nickPlain,userPlain⟩ := well
      have first := takeTo_stop nick (user ++ '@' :: host) nickPlain
      have second := takeTo_stop user host userPlain
      simp [parsePrefix,Origin.text,Origin.asPrefix,first,second]

theorem readPrefix_render (netNick : Str) (msg : Message) (well : msg.Readable) (s : Str) :
    readPrefix netNick (msg.head ++ (msg.command ++ s)) =
      some (msg.origin.map (Origin.asPrefix netNick),msg.command ++ s) := by
  cases origin : msg.origin with
  | none =>
      obtain ⟨some,-,head⟩ := well.command
      cases command : msg.command with
      | nil => exact absurd command some
      | cons c rest =>
          have notColon : c ≠ ':' := by simpa [command] using head
          simp only [Message.head,origin,List.nil_append,List.cons_append,Option.map_none]
          unfold readPrefix
          split
          · rename_i colon
            exact absurd (List.cons.inj colon).1 notColon
          · rfl
  | some origin' =>
      obtain ⟨fits,spaceless⟩ := well.origin origin' origin
      have read := takeTo_stop origin'.text (msg.command ++ s) spaceless
      simp [Message.head,origin,readPrefix,read,parsePrefix_origin netNick origin' fits]

theorem read_params (middles : List Str) (well : ∀ middle ∈ middles, Word middle ∧ Plain middle) (text : Option Str)
    (parameter : middles ≠ [] ∨ text ≠ none) :
    ∃ params, tokenize true ' ' ((middleText middles ++ trailer text).tail) none = some (params,(trailer text).tail) ∧
      (middles = [] → params = none) ∧
      (middles ≠ [] → ∃ t, params = some t ∧ words t.slots = some middles ∧ Ended t.slots middles.length) := by
  by_cases none' : middles = []
  · subst none'
    cases text with
    | none => simp at parameter
    | some text => exact ⟨none,by simp [middleText,trailer,tokenize],fun _ => rfl,fun some => absurd rfl some⟩
  · obtain ⟨next,read,found⟩ := tokenize_params middles none' well text
    exact ⟨some next,read,fun empty => absurd empty none',fun _ => ⟨next,rfl,found⟩⟩

theorem read_trailing (text : Option Str) (plain : ∀ s, text = some s → Plain s) :
    ∃ rest, tokenize false ' ' (trailer text).tail.tail none = some (rest,[]) ∧ (text.getD [] = [] → rest = none) ∧
      ∀ s, text = some s → s ≠ [] → ∃ t found, rest = some t ∧ t.str = s ∧ words t.slots = some found ∧ found ≠ [] ∧
        (join found = s ∨ join found ++ [' '] = s) := by
  cases text with
  | none => exact ⟨none,by simp [trailer,tokenize],fun _ => rfl,by simp⟩
  | some text =>
      cases text with
      | nil => exact ⟨none,by simp [trailer,tokenize],fun _ => rfl,by simp⟩
      | cons c s =>
          obtain ⟨next,found,read,whole,reads,many,spells⟩ := tokenize_text (c :: s) (by simp) (plain _ rfl)
          refine ⟨some next,by simpa [trailer] using read,by simp,?_⟩
          intro other same _
          cases same
          exact ⟨next,found,rfl,whole,reads,many,spells⟩

theorem decode_parts (netNick : Str) (msg : Message) (well : msg.Readable) :
    ∃ params rest : Option Tokens, decode netNick msg.render = some ⟨msg.origin.map (Origin.asPrefix netNick),msg.command,
        params.map (·.slots),params.map (·.str),rest.map (·.slots),rest.map (·.str)⟩ ∧
      tokenize true ' ' ((middleText msg.middles ++ trailer msg.trailing).tail) none = some (params,(trailer msg.trailing).tail) ∧
      (msg.middles = [] → params = none) ∧
      (msg.middles ≠ [] → ∃ t, params = some t ∧ words t.slots = some msg.middles ∧ Ended t.slots msg.middles.length) ∧
      tokenize false ' ' (trailer msg.trailing).tail.tail none = some (rest,[]) ∧ (msg.trailing.getD [] = [] → rest = none) ∧
      ∀ s, msg.trailing = some s → s ≠ [] → ∃ t found, rest = some t ∧ t.str = s ∧ words t.slots = some found ∧ found ≠ [] ∧
        (join found = s ∨ join found ++ [' '] = s) := by
  have plain : Plain msg.render := fun c member => (well.clean c member).2
  have plainPart : ∀ part : Str, (∀ c ∈ part, c ∈ msg.render) → Plain part :=
    fun part inside c member => plain c (inside c member)
  have whole : msg.render = msg.head ++ (msg.command ++ (middleText msg.middles ++ trailer msg.trailing)) := by
    simp [Message.render]
  have params : ∀ middle ∈ msg.middles, Word middle ∧ Plain middle := by
    intro middle member
    refine ⟨well.middles middle member,plainPart middle ?_⟩
    intro c inside
    have inMiddles : c ∈ middleText msg.middles := List.mem_flatMap.mpr ⟨middle,member,by simp [inside]⟩
    simp [Message.render,inMiddles]
  have texts : ∀ s, msg.trailing = some s → Plain s := by
    intro s same
    refine plainPart s ?_
    intro c inside
    simp [Message.render,trailer,same,inside]
  obtain ⟨first,parameters⟩ : ∃ s, middleText msg.middles ++ trailer msg.trailing = ' ' :: s := by
    cases middles : msg.middles with
    | cons first rest => exact ⟨_,rfl⟩
    | nil =>
        cases trailing : msg.trailing with
        | some text => exact ⟨_,rfl⟩
        | none => exact absurd well.parameter (by simp [middles,trailing])
  have start := readPrefix_render netNick msg well (' ' :: first)
  have command := takeTo_stop msg.command first well.command.2.1
  obtain ⟨params,readParams,none',some'⟩ := read_params msg.middles params msg.trailing well.parameter
  obtain ⟨rest,readRest,silent,spoken⟩ := read_trailing msg.trailing texts
  refine ⟨params,rest,?_,readParams,none',some',readRest,silent,spoken⟩
  rw [parameters,List.tail_cons] at readParams
  rw [whole,parameters]
  simp only [decode,start,command,readParams,readRest,Option.bind_eq_bind,Option.bind_some]

theorem decode_readout (netNick : Str) (msg : Message) (well : msg.Readable) :
    ∃ data, decode netNick msg.render = some data ∧ Readout netNick msg data := by
  obtain ⟨params,rest,decoded,-,none',some',-,silent,spoken⟩ := decode_parts netNick msg well
  refine ⟨_,decoded,⟨rfl,rfl,?_,?_,?_,?_,?_⟩⟩
  · intro empty
    simp [none' empty]
  · intro some
    obtain ⟨t,same,found,-⟩ := some' some
    exact ⟨t.slots,by simp [same],found⟩
  · intro slots params
    by_cases empty : msg.middles = []
    · simp [none' empty] at params
    · obtain ⟨t,same,-,ended⟩ := some' empty
      rw [same] at params
      cases params
      exact ended
  · intro empty
    simp [silent empty]
  · intro text same some
    obtain ⟨t,found,is,whole,reads,many,spells⟩ := spoken text same some
    exact ⟨by simp [is,whole],t.slots,found,by simp [is],reads,many,spells⟩

theorem decode_render (netNick : Str) (msg : Message) (well : msg.WellFormed) :
    ∃ data, decode netNick msg.render = some data ∧ Decoded netNick msg data := by
  obtain ⟨data,decoded,readout⟩ := decode_readout netNick msg well.readable
  have some' : ∀ text, msg.trailing = some text → text ≠ [] := by
    rintro text same rfl
    exact well.trailing same
  refine ⟨data,decoded,⟨readout.pre,readout.command,readout.noParams,readout.params,?_,?_,?_⟩⟩
  · cases trailing : msg.trailing with
    | none => exact (readout.silent (by simp [trailing])).2
    | some text => exact (readout.spoken text trailing (some' text trailing)).1
  · intro empty
    exact (readout.silent (by simp [empty])).1
  · intro text same
    obtain ⟨-,slots,found,rest,reads,-,spells⟩ := readout.spoken text same (some' text same)
    exact ⟨slots,found,rest,reads,spells⟩

-- Trailing text of words with single spaces between them is read as these words.
theorem decode_words (netNick : Str) (msg : Message) (well : msg.Readable) (gap : Bool)
    (trailing : msg.trailing = some (join found ++ if gap then [' '] else [])) (some' : found ≠ [])
    (each : ∀ w ∈ found, w ≠ [] ∧ ' ' ∉ w) (read : decode netNick msg.render = some data) :
    ∃ slots, data.rest = some slots ∧ words slots = some found := by
  obtain ⟨params,rest,decoded,-,-,-,readRest,-,-⟩ := decode_parts netNick msg well
  have plain : ∀ w ∈ found, w ≠ [] ∧ ' ' ∉ w ∧ Plain w := by
    intro w member
    refine ⟨(each w member).1,(each w member).2,?_⟩
    intro c inside
    refine (well.clean c ?_).2
    have inJoin : c ∈ join found := by
      obtain ⟨first,others,rfl⟩ := List.exists_cons_of_ne_nil some'
      rw [join_middles]
      rcases List.mem_cons.mp member with rfl | later
      · simp [inside]
      · exact List.mem_append_right _ (List.mem_flatMap.mpr ⟨w,later,by simp [inside]⟩)
    simp [Message.render,trailer,trailing,inJoin]
  obtain ⟨next,again,reads⟩ := tokenize_join found some' plain gap
  rw [trailing] at readRest
  have same : rest = some next := by
    simp only [trailer,List.tail_cons] at readRest
    rw [again] at readRest
    simpa using readRest.symm
  rw [decoded] at read
  cases read
  exact ⟨next.slots,by simp [same],reads⟩

def topicChange : Message :=
  ⟨some (.mask "nick".toList "user".toList "host".toList),"TOPIC".toList,["#c".toList,"x".toList],some "two  words ".toList⟩

theorem topicChange_decodes :
    ∃ data, decode "bot".toList topicChange.render = some data ∧ Decoded "bot".toList topicChange data := by
  refine decode_render "bot".toList topicChange ⟨?_,by unfold Word; decide,?_,by decide,by decide,by decide⟩
  · intro origin same
    cases same
    exact ⟨⟨by decide,by decide⟩,by decide⟩
  · intro middle member
    simp only [topicChange,List.mem_cons,List.not_mem_nil,or_false] at member
    rcases member with rfl | rfl
    · unfold Word
      decide
    · unfold Word
      decide

end Trollbot.IrcParse
