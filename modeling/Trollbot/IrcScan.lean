import Trollbot.Foundation.Cursor
import Trollbot.IrcParse

-- parse_irc_line with its cursors and allocations. A read goes up to the terminator of its string, and a
-- write stays in its allocation.
namespace Trollbot.IrcParse
open CBuffer

structure PrefixCells where
  servername : Option Buffer
  nick : Option Buffer
  user : Option Buffer
  host : Option Buffer

structure DataCells where
  pre : Option PrefixCells
  command : Buffer
  cParams : Option (Cells (Option Buffer))
  cParamsStr : Option Buffer
  rest : Option (Cells (Option Buffer))
  restStr : Option Buffer

-- The copy of the word in front, with the note of a '!' in it.
def tmpFor (buffer : Buffer) : Nat → Nat → Buffer → Bool → Option (Buffer × Bool)
  | 0,_,_,_ => none
  | fuel+1,i,tmp,which => do
    let c ← peek buffer i
    if c = ' ' then some (tmp,which) else
    let tmp ← write tmp i [some c]
    tmpFor buffer fuel (i+1) tmp (if c = '!' then true else which)

def scanMask (tmp : Buffer) (size : Nat) : Option (PrefixCells × Nat) := do
  let (i,nick) ← copyTo '!' tmp 1 (tmalloc0 (size + 1)) 0
  let (i,user) ← copyTo '@' tmp (i+1) (tmalloc0 (size + 1)) 0
  let (i,host) ← copyTo nul tmp (i+1) (tmalloc0 (size + 1)) 0
  some (⟨none,some nick,some user,some host⟩,i+1)

def scanServer (netNick : Str) (tmp : Buffer) (size : Nat) : Option (PrefixCells × Nat) := do
  let name ← textFrom tmp 1
  let servername := tstrdup name
  if name = netNick then some (⟨none,some servername,none,none⟩,size + 1)
  else some (⟨some servername,none,none,none⟩,size + 1)

def scanOrigin (netNick : Str) (tmp : Buffer) (which : Bool) (size : Nat) : Option (PrefixCells × Nat) :=
  if which then scanMask tmp size else scanServer netNick tmp size

def scanPrefix (netNick : Str) (buffer : Buffer) : Option (Option PrefixCells × Nat) := do
  let c ← peek buffer 0
  if c ≠ ':' then some (none,0) else
  let line ← textFrom buffer 0
  let (tmp,which) ← tmpFor buffer (buffer.length + 1) 0 (tmalloc0 (line.length + 1)) false
  let size ← (textFrom tmp 0).map List.length
  let (pre,m) ← scanOrigin netNick tmp which size
  some (some pre,m)

-- A token array while it is padded, with the copy of the whole text. Sizes are counted in cells.
structure TokenCells where
  slots : Cells (Option Buffer)
  bufindex : Nat
  bufsize : Nat
  str : Buffer

def TokenCells.new (size : Nat) : TokenCells :=
  ⟨some (some (tmalloc0 (size + 1))) :: List.replicate 9 (some none),0,10,tmalloc0 (size + 1)⟩

def TokenCells.advance (t : TokenCells) (i : Nat) : Option TokenCells := do
  let bufindex := t.bufindex + 1
  let (slots,bufsize) ←
    if bufindex + 1 = t.bufsize then
      (grow none t.slots (bufindex + 10 + 1) t.bufsize).map (fun grown => (grown,bufindex + 10 + 1))
    else some (t.slots,t.bufsize)
  let str ← write t.str i [some ' ']
  some ⟨slots,bufindex,bufsize,str⟩

def TokenCells.openWord (t : TokenCells) (size : Nat) : Option TokenCells := do
  let slots ← write t.slots t.bufindex [some (some (tmalloc0 (size + 1))),some none]
  some { t with slots := slots }

def TokenCells.put (t : TokenCells) (i j : Nat) (c : Char) : Option TokenCells :=
  match t.slots[t.bufindex]? with
  | some (some (some word)) => do
    let word ← write word j [some c]
    let str ← write t.str i [some c]
    some { t with slots := t.slots.set t.bufindex (some (some word)), str := str }
  | _ => none

-- The ':' after a space, where the first loop ends.
def colonAt (middle : Bool) (buffer : Buffer) (m : Nat) (c : Char) : Option Bool :=
  if middle ∧ c = ':' then (peek buffer (m - 1)).map (fun d => decide (d = ' ')) else some false

def started (buffer : Buffer) (m : Nat) : Option TokenCells → Option TokenCells
  | none => (textFrom buffer m).map (fun left => TokenCells.new left.length)
  | some t => some t

-- The loops over the parameters and over the trailing text, from buffer[m]. `middle` marks the first one.
def scanFor (middle : Bool) (buffer : Buffer) : Nat → Nat → Nat → Nat → Option TokenCells → Option (Nat × Option TokenCells)
  | 0,_,_,_,_ => none
  | fuel+1,m,i,j,t => do
    let c ← peek buffer m
    if c = nul ∨ c = '\n' ∨ c = '\r' then some (m,t) else
    let colon ← colonAt middle buffer m c
    if colon then some (m,t) else
    let t ← started buffer m t
    if c = ' ' then do
      let t ← t.advance i
      let d ← peek buffer (m+1)
      if d = '\r' ∨ d = '\n' ∨ (if middle then d = ':' else d = nul) then some (m+1,some t) else
      let left ← textFrom buffer (m+1)
      let t ← t.openWord left.length
      let t ← t.put (i+1) 0 d
      scanFor middle buffer fuel (m+2) (i+2) 1 (some t)
    else do
      let t ← t.put i j c
      scanFor middle buffer fuel (m+1) (i+1) (j+1) (some t)

def scanTokens (middle : Bool) (buffer : Buffer) (m : Nat) : Option (Nat × Option TokenCells) :=
  scanFor middle buffer (buffer.length + 1) m 0 0 none

-- parse_irc_line up to its dispatch.
def scanLine (netNick : Str) (buffer : Buffer) : Option DataCells := do
  let (pre,m) ← scanPrefix netNick buffer
  let left ← textFrom buffer m
  let (m,command) ← copyTo ' ' buffer m (tmalloc0 (left.length + 1)) 0
  let (m,params) ← scanTokens true buffer (m+1)
  let c ← peek buffer m
  let (_,rest) ← scanTokens false buffer (if c ≠ nul then m+1 else m)
  some ⟨pre,command,params.map (·.slots),params.map (·.str),rest.map (·.slots),rest.map (·.str)⟩

-- What the cells say.
def cstring (b : Buffer) : Str := (text b).getD []

def PrefixCells.shown (pre : PrefixCells) : IrcPrefix :=
  ⟨pre.servername.map cstring,pre.nick.map cstring,pre.user.map cstring,pre.host.map cstring⟩

def shownSlots (slots : Cells (Option Buffer)) : Slots := slots.map (Option.map (Option.map cstring))

def DataCells.shown (data : DataCells) : IrcData :=
  ⟨data.pre.map PrefixCells.shown,cstring data.command,data.cParams.map shownSlots,data.cParamsStr.map cstring,
    data.rest.map shownSlots,data.restStr.map cstring⟩

theorem cstring_padded (clean : nul ∉ w) (room : w.length < n) : cstring (padded n w) = w := by
  rw [cstring,padded_text clean room]
  rfl

-- The cells of a token array show the tokens, and there is room for what is left of the text.
structure Copies (cells : TokenCells) (t : Tokens) (i left : Nat) : Prop where
  slots : t.slots = shownSlots cells.slots
  index : t.bufindex = cells.bufindex
  size : t.bufsize = cells.bufsize
  str : ∃ n, cells.str = padded n t.str ∧ t.str.length = i ∧ i + left < n ∧ nul ∉ t.str

-- The open word, j characters of it, in an allocation with room for what is left.
def OpenAt (cells : TokenCells) (j left : Nat) : Prop :=
  ∃ n w, cells.slots[cells.bufindex]? = some (some (some (padded n w))) ∧ w.length = j ∧ j + left < n ∧ nul ∉ w

-- The same step on the cells and on what they show.
def Alike (Shows : α → β → Prop) : Option α → Option β → Prop
  | some a,some b => Shows a b
  | none,none => True
  | _,_ => False

theorem Alike.bind {a : Option α} {b : Option β} (alike : Alike Shows a b) (next : ∀ x y, Shows x y → Alike Shows' (f x) (g y)) :
    Alike Shows' (a.bind f) (b.bind g) := by
  cases a with
  | none =>
      cases b with
      | none => trivial
      | some y => exact alike.elim
  | some x =>
      cases b with
      | none => exact alike.elim
      | some y => exact next x y alike

theorem Alike.map_right {a : Option α} {b : Option β} (alike : Alike Shows a b) (next : ∀ x y, Shows x y → Shows' x (f y)) :
    Alike Shows' a (b.map f) := by
  cases a with
  | none =>
      cases b with
      | none => trivial
      | some y => exact alike.elim
  | some x =>
      cases b with
      | none => exact alike.elim
      | some y => exact next x y alike

theorem alike_none {a : Option α} {Shows : α → β → Prop} (nothing : a = none) : Alike Shows a (none : Option β) := by
  rw [nothing]
  trivial

theorem write_shown (slots : Cells (Option Buffer)) (pos : Nat) (cells : Cells (Option Buffer)) :
    write (shownSlots slots) pos (shownSlots cells) = (write slots pos cells).map shownSlots := by
  unfold write shownSlots
  simp only [List.length_map]
  split
  · simp [List.map_take,List.map_drop]
  · rfl

theorem grow_shown (slots : Cells (Option Buffer)) (size recorded : Nat) :
    grow none (shownSlots slots) size recorded = (grow none slots size recorded).map shownSlots := by
  have resized : resize (shownSlots slots) size = shownSlots (resize slots size) := by
    simp [resize,shownSlots,List.map_take]
  have zeros : List.replicate (size - recorded) (some (none : Option Str)) =
      shownSlots (List.replicate (size - recorded) (some none)) := by
    simp [shownSlots]
  unfold grow
  rw [resized]
  by_cases small : recorded < size
  · by_cases zero : recorded = 0
    · subst zero
      simp [small]
    · simp only [small,zero,if_true,if_false]
      rw [zeros,write_shown]
  · simp only [small,if_false]
    rfl

section
variable {cells : TokenCells} {t : Tokens}

theorem shown_get (slots : Cells (Option Buffer)) (i : Nat) :
    (shownSlots slots)[i]? = slots[i]?.map (Option.map (Option.map cstring)) := by
  simp [shownSlots]

theorem advance_alike (copies : Copies cells t i (left + 1)) :
    Alike (fun cells t => Copies cells t (i + 1) left) (cells.advance i) t.advance := by
  obtain ⟨slots,index,size,n,str,length,room,clean⟩ := copies
  obtain ⟨held,bufindex,bufsize,copy⟩ := cells
  obtain ⟨shown,bufindex',bufsize',whole⟩ := t
  simp only at slots index size str length clean
  subst slots index size str length
  have written := padded_write (show whole.length < n by omega) ' '
  have spaced : nul ∉ whole ++ [' '] := by simpa [nul] using clean
  unfold TokenCells.advance Tokens.advance
  simp only [written]
  by_cases full : bufindex' + 1 + 1 = bufsize'
  · simp only [full,if_true,tsrealloc0,grow_shown]
    cases grow none held (bufindex' + 1 + 10 + 1) bufsize' with
    | none => trivial
    | some grown => exact ⟨rfl,rfl,rfl,n,rfl,by simp,by omega,spaced⟩
  · simp only [full,if_false]
    exact ⟨rfl,rfl,rfl,n,rfl,by simp,by omega,spaced⟩

theorem open_alike (copies : Copies cells t i left) (size : Nat) :
    Alike (fun cells t => Copies cells t i left ∧ ∀ left', left' < size + 1 → OpenAt cells 0 left') (cells.openWord size) t.openWord := by
  obtain ⟨slots,index,sizes,str⟩ := copies
  obtain ⟨held,bufindex,bufsize,copy⟩ := cells
  obtain ⟨shown,bufindex',bufsize',whole⟩ := t
  simp only at slots index sizes str
  subst slots index sizes
  have fresh : ([some (some []),some none] : Slots) = shownSlots [some (some (tmalloc0 (size + 1))),some none] := by
    have empty : cstring (tmalloc0 (size + 1)) = [] := by
      rw [tmalloc0,zeroed_padded]
      exact cstring_padded (by simp) (by simp)
    simp [shownSlots,empty]
  unfold TokenCells.openWord Tokens.openWord
  simp only [fresh,write_shown]
  cases done : write held bufindex' [some (some (tmalloc0 (size + 1))),some none] with
  | none => trivial
  | some after =>
      refine ⟨⟨rfl,rfl,rfl,str⟩,fun left' small => ⟨size + 1,[],?_,rfl,by omega,by simp⟩⟩
      have here := @write_get _ _ _ _ _ bufindex' done
      rw [if_pos ⟨Nat.le_refl _,by simp⟩,Nat.sub_self] at here
      rw [← zeroed_padded]
      exact here

theorem put_alike (copies : Copies cells t i (left + 1)) (opened : OpenAt cells j (left + 1)) (clean : c ≠ nul) :
    Alike (fun cells t => Copies cells t (i + 1) left ∧ OpenAt cells (j + 1) left) (cells.put i j c) (t.put c) := by
  obtain ⟨slots,index,sizes,n,str,length,room,plain⟩ := copies
  obtain ⟨k,w,here,size,fits,wordPlain⟩ := opened
  obtain ⟨held,bufindex,bufsize,copy⟩ := cells
  obtain ⟨shown,bufindex',bufsize',whole⟩ := t
  simp only at slots index sizes str length plain here
  subst slots index sizes str length size
  have there : (shownSlots held)[bufindex']? = some (some (some w)) := by
    rw [shown_get,here]
    simp [cstring_padded wordPlain (show w.length < k by omega)]
  have wordClean : nul ∉ w ++ [c] := by simp [wordPlain,clean.symm]
  have textClean : nul ∉ whole ++ [c] := by simp [plain,clean.symm]
  simp only [TokenCells.put,Tokens.put,here,there,padded_write (show w.length < k by omega),
    padded_write (show whole.length < n by omega)]
  refine ⟨⟨?_,rfl,rfl,n,rfl,by simp,by omega,textClean⟩,k,w ++ [c],?_,by simp,by omega,wordClean⟩
  · have size : (w ++ [c]).length < k := by simp; omega
    simp [shownSlots,List.map_set,cstring_padded wordClean size]
  · have inside := (List.getElem?_eq_some_iff.mp here).1
    simp [inside]

theorem new_copies (size : Nat) (room : left < size + 1) :
    Copies (TokenCells.new size) Tokens.new 0 left ∧ OpenAt (TokenCells.new size) 0 left := by
  have empty : cstring (tmalloc0 (size + 1)) = [] := by
    rw [tmalloc0,zeroed_padded]
    exact cstring_padded (by simp) (by simp)
  refine ⟨⟨by simp [Tokens.new,TokenCells.new,shownSlots,empty],rfl,rfl,size + 1,zeroed_padded,rfl,by omega,by simp [Tokens.new]⟩,
    size + 1,[],?_,rfl,by omega,by simp⟩
  rw [← zeroed_padded]
  rfl

-- Before a loop there are no tokens; in it, the cells show them.
def StateAlike (i j left : Nat) : Option TokenCells → Option Tokens → Prop
  | none,none => i = 0 ∧ j = 0
  | some cells,some t => Copies cells t i left ∧ OpenAt cells j left
  | _,_ => False

def TokensShown (cells : Option TokenCells) (t : Option Tokens) : Prop :=
  cells.map (fun cells => (shownSlots cells.slots,cstring cells.str)) = t.map (fun t => (t.slots,t.str))

theorem copies_shown (copies : Copies cells t i left) : TokensShown (some cells) (some t) := by
  obtain ⟨slots,-,-,n,str,length,room,clean⟩ := copies
  have whole : cstring cells.str = t.str := by
    rw [str]
    exact cstring_padded clean (by omega)
  simp [TokensShown,slots,whole]

theorem state_shown {cells : Option TokenCells} {t : Option Tokens} (state : StateAlike i j left cells t) : TokensShown cells t := by
  cases cells with
  | none =>
      cases t with
      | none => rfl
      | some t => exact state.elim
  | some cells =>
      cases t with
      | none => exact state.elim
      | some t => exact copies_shown state.1

-- The arrays are made for what is left of the text.
theorem state_started {cells : Option TokenCells} {t : Option Tokens} (state : StateAlike i j (left.length) cells t)
    (read : textFrom b m = some left) : ∃ begun, started b m cells = some begun ∧ Copies begun (t.getD .new) i left.length ∧
      OpenAt begun j left.length := by
  cases cells with
  | none =>
      cases t with
      | none =>
          obtain ⟨rfl,rfl⟩ := state
          exact ⟨TokenCells.new left.length,by rw [started,read]; rfl,new_copies left.length (by omega)⟩
      | some t => exact state.elim
  | some cells =>
      cases t with
      | none => exact state.elim
      | some t => exact ⟨cells,rfl,state⟩

theorem scanFor_past (read : text b = some line) (past : line.length < m) (fuel : Nat) : scanFor middle b fuel m i j cells' = none := by
  cases fuel with
  | zero => rfl
  | succ fuel => simp [scanFor,peek_past read past]

theorem colon_read (middle : Bool) (c : Char) (before : middle = true → peek b (m - 1) = some last) :
    colonAt middle b m c = some (decide (middle = true ∧ c = ':' ∧ last = ' ')) := by
  unfold colonAt
  by_cases colon : middle = true ∧ c = ':'
  · rw [if_pos colon,before colon.1]
    simp [colon]
  · rw [if_neg colon]
    congr 1
    symm
    rw [decide_eq_false_iff_not]
    rintro ⟨first,second,-⟩
    exact colon ⟨first,second⟩

-- The word behind a space, where the line goes on.
theorem word_alike (middle : Bool) {d : Char} {rest : Str} (copies : Copies cells t i (rest.length + 1)) (clean : d ≠ nul)
    (goes : ∀ cells t, Copies cells t (i + 1) rest.length ∧ OpenAt cells 1 rest.length →
      Alike Shows (scanFor middle b fuel m (i + 1) 1 (some cells)) (tokenize middle d rest (some t))) :
    Alike Shows ((cells.openWord (rest.length + 1)).bind fun cells => (cells.put i 0 d).bind fun cells => scanFor middle b fuel m (i + 1) 1 (some cells))
      (t.openWord.bind fun t => (t.put d).bind fun t => tokenize middle d rest (some t)) := by
  refine (open_alike copies (rest.length + 1)).bind ?_
  intro cells t alike
  obtain ⟨copies,opened⟩ := alike
  refine (put_alike copies (opened _ (by omega)) clean).bind ?_
  exact goes

-- A loop of the source and the list's: they stop at the same place with the same tokens, or both read on behind the line.
theorem scan_alike (middle : Bool) (read : text b = some line) (stands : Stands line m rest)
    (before : middle = true → peek b (m - 1) = some last) {cells : Option TokenCells} {t : Option Tokens}
    (state : StateAlike i j rest.length cells t) (fuel : Nat) (enough : rest.length < fuel) :
    Alike (fun scanned parts => Stands line scanned.1 parts.2 ∧ TokensShown scanned.2 parts.1)
      (scanFor middle b fuel m i j cells) (tokenize middle last rest t) := by
  induction fuel generalizing rest m last i j cells t with
  | zero => omega
  | succ fuel ih =>
      have here := peek_stands read stands
      cases rest with
      | nil =>
          simp only [scanFor,tokenize,here,List.headD_nil,Option.bind_eq_bind,Option.bind_some,true_or,if_true]
          exact ⟨stands,state_shown state⟩
      | cons c rest =>
          have clean := stands_clean read stands
          obtain ⟨begun,makes,copies,opened⟩ := state_started state (textFrom_stands read stands)
          simp only [List.length_cons] at copies opened enough
          by_cases line' : c = '\n' ∨ c = '\r'
          · have stop : c = '\n' ∨ c = '\r' ∨ (middle = true ∧ c = ':' ∧ last = ' ') := by
              rcases line' with feed | carriage
              · exact .inl feed
              · exact .inr (.inl carriage)
            simp only [scanFor,tokenize,here,List.headD_cons,Option.bind_eq_bind,Option.bind_some,line',or_true,if_true,stop]
            exact ⟨stands,state_shown state⟩
          · have plain : ¬(c = nul ∨ c = '\n' ∨ c = '\r') := by
              rintro (zero | ends)
              · exact clean zero
              · exact line' ends
            by_cases colon : middle = true ∧ c = ':' ∧ last = ' '
            · simp only [scanFor,tokenize,here,List.headD_cons,Option.bind_eq_bind,Option.bind_some,plain,if_false,
                colon_read middle c before]
              rw [if_pos (decide_eq_true colon),if_pos (.inr (.inr colon))]
              exact ⟨stands,state_shown state⟩
            · have going : ¬(c = '\n' ∨ c = '\r' ∨ (middle = true ∧ c = ':' ∧ last = ' ')) := by
                rintro (feed | carriage | found)
                · exact line' (.inl feed)
                · exact line' (.inr carriage)
                · exact colon found
              have behind : peek b (m + 1) = some (rest.headD nul) := peek_stands read stands.next
              have inner : ¬decide (middle = true ∧ c = ':' ∧ last = ' ') = true := by rwa [decide_eq_true_iff]
              simp only [scanFor,tokenize,here,List.headD_cons,Option.bind_eq_bind,Option.bind_some,plain,if_false,
                colon_read middle c before,makes]
              rw [if_neg inner,if_neg going]
              by_cases space : c = ' '
              · rw [if_pos space,if_pos space]
                refine (advance_alike copies).bind ?_
                intro cells t copies
                simp only [behind,Option.bind_some]
                cases rest with
                | nil =>
                    cases middle with
                    | true =>
                        -- The first loop takes the terminator for a word, and reads on behind it.
                        refine alike_none ?_
                        have left := stands.length
                        simp only [List.length_cons,List.length_nil] at left
                        have past : line.length < m + 2 := by omega
                        simp only [List.headD_nil,nul,Char.reduceEq,if_true,or_self,if_false,textFrom_stands read stands.next,Option.bind_some]
                        cases cells.openWord [].length with
                        | none => rfl
                        | some cells =>
                            simp only [Option.bind_some]
                            cases cells.put (i + 1) 0 '\x00' with
                            | none => rfl
                            | some cells => exact scanFor_past read past fuel
                    | false =>
                        simp only [List.headD_nil,Bool.false_eq_true,if_false,or_true,if_true]
                        exact ⟨stands.next,copies_shown copies⟩
                | cons d rest =>
                    have word := stands_clean read stands.next
                    have same : (d = '\r' ∨ d = '\n' ∨ (if middle = true then d = ':' else d = nul)) ↔
                        (d = '\r' ∨ d = '\n' ∨ (middle = true ∧ d = ':')) := by
                      cases middle with
                      | true => simp
                      | false => simp [word]
                    simp only [List.headD_cons,same,textFrom_stands read stands.next,Option.bind_some]
                    by_cases ends : d = '\r' ∨ d = '\n' ∨ (middle = true ∧ d = ':')
                    · rw [if_pos ends,if_pos ends]
                      exact ⟨stands.next,copies_shown copies⟩
                    · rw [if_neg ends,if_neg ends]
                      refine word_alike middle copies word ?_
                      intro cells t state
                      refine ih stands.next.next (fun _ => ?_) state ?_
                      · simpa using behind
                      · simp only [List.length_cons] at enough
                        omega
              · rw [if_neg space,if_neg space]
                refine (put_alike copies opened clean).bind ?_
                intro cells t alike
                obtain ⟨copies,opened⟩ := alike
                exact ih stands.next (fun _ => by simpa using here) ⟨copies,opened⟩ (by omega)

end

theorem takeTo_none (missing : stop ∉ s) : takeTo stop s = none := by
  induction s with
  | nil => rfl
  | cons c s ih =>
      have differ : c ≠ stop := fun same => missing (by simp [same])
      simp [takeTo,differ,ih (fun member => missing (by simp [member]))]

section
variable {b : Buffer} {s rest : Str}

-- A copy up to a stop: both find it, or both read on behind the text.
theorem copy_alike (read : text b = some s) (stop : Char) (letter : stop ≠ nul) (stands : Stands s i rest) (room : rest.length < n) :
    Alike (fun copied parts => Stands s copied.1 (stop :: parts.2) ∧ copied.2 = padded n parts.1 ∧ cstring copied.2 = parts.1)
      (copyTo stop b i (tmalloc0 n) 0) (takeTo stop rest) := by
  by_cases found : stop ∈ rest
  · obtain ⟨front,back,rfl,plain⟩ := List.eq_append_cons_of_mem found
    rw [List.length_append] at room
    have clean : nul ∉ front := fun member => (cells_of_text read).1 (stands.subset (List.mem_append_left _ member))
    obtain ⟨j,copied,there⟩ := copyTo_stop (w := []) (n := n) read front plain stands rfl (by simp; omega)
    rw [takeTo_stop front back plain,tmalloc0,zeroed_padded]
    rw [List.length_nil,List.nil_append] at copied
    rw [copied]
    exact ⟨there,rfl,cstring_padded clean (by omega)⟩
  · rw [takeTo_none found,copyTo_past read found letter stands]
    trivial

theorem tmpFor_past (read : text b = some s) (past : s.length < i) (fuel : Nat) : tmpFor b fuel i tmp which = none := by
  cases fuel with
  | zero => rfl
  | succ fuel => simp [tmpFor,peek_past read past]

theorem tmp_alike (read : text b = some s) (stands : Stands s w.length rest) (room : w.length + rest.length < n) (which : Bool)
    (fuel : Nat) (enough : rest.length < fuel) :
    Alike (fun copied parts => copied.1 = padded n (w ++ parts.1) ∧ copied.2 = (which || decide ('!' ∈ parts.1)))
      (tmpFor b fuel w.length (padded n w) which) (takeTo ' ' rest) := by
  induction fuel generalizing rest w which with
  | zero => omega
  | succ fuel ih =>
      cases rest with
      | nil =>
          have left := stands.length
          simp only [List.length_nil] at left
          have past : s.length < w.length + 1 := by omega
          refine alike_none ?_
          have end' : nul ≠ ' ' := by decide
          simp only [tmpFor,peek_stands read stands,Option.bind_eq_bind,Option.bind_some,List.headD_nil,if_neg end']
          cases write (padded n w) w.length [some nul] with
          | none => rfl
          | some tmp => exact tmpFor_past read past fuel
      | cons c rest =>
          simp only [List.length_cons] at room enough
          simp only [tmpFor,takeTo,peek_stands read stands,Option.bind_eq_bind,Option.bind_some,List.headD_cons]
          by_cases space : c = ' '
          · rw [if_pos space,if_pos space]
            exact ⟨by simp,by simp⟩
          · rw [if_neg space,if_neg space,padded_write (by omega)]
            have next := @ih rest (w ++ [c]) (by simpa using stands.next) (by simp; omega) (if c = '!' then true else which) (by omega)
            rw [List.length_append,List.length_singleton] at next
            simp only [Option.bind_some]
            refine next.map_right ?_
            intro copied parts alike
            obtain ⟨same,noted⟩ := alike
            refine ⟨by simpa using same,?_⟩
            rw [noted]
            by_cases bang : c = '!'
            · simp [bang]
            · simp [bang,Ne.symm bang]

-- The three parts of nick!user@host, from the copy of the word in front.
theorem mask_alike (clean : nul ∉ w) (room : w.length + 1 < n) :
    Alike (fun scanned pre => scanned.1.shown = pre ∧ scanned.2 = w.length + 2) (scanMask (padded n (':' :: w)) (w.length + 1))
      ((takeTo '!' w).bind fun first => (takeTo '@' first.2).bind fun second => some ⟨none,some first.1,some second.1,some second.2⟩) := by
  have whole : nul ∉ ':' :: w := by simpa [nul] using clean
  have read : text (padded n (':' :: w)) = some (':' :: w) := padded_text whole (by simpa using room)
  have start : Stands (':' :: w) 1 w := (stands_first _).next
  unfold scanMask
  have first' := copy_alike read '!' (by decide) start (show w.length < w.length + 1 + 1 by omega)
  refine first'.bind ?_
  intro scanned parts alike
  obtain ⟨i,nick⟩ := scanned
  obtain ⟨front,back⟩ := parts
  obtain ⟨stands,-,nickShown⟩ := alike
  simp only at stands nickShown ⊢
  have left := stands.next.length
  simp only [List.length_cons] at left
  have second' := copy_alike read '@' (by decide) stands.next (show back.length < w.length + 1 + 1 by omega)
  refine second'.bind ?_
  intro scanned parts alike
  obtain ⟨j,user⟩ := scanned
  obtain ⟨middle,host⟩ := parts
  obtain ⟨stands',-,userShown⟩ := alike
  simp only at stands' userShown ⊢
  have left' := stands'.next.length
  simp only [List.length_cons] at left'
  have plain : nul ∉ host := fun member => whole (stands'.next.subset member)
  have at' : Stands (':' :: w) (j + 1) (host ++ []) := by simpa using stands'.next
  obtain ⟨k,copied,there⟩ := copyTo_stop (w := []) (n := w.length + 1 + 1) read host plain at' rfl (by simp; omega)
  rw [List.length_nil,List.nil_append] at copied
  have ends := there.length
  simp only [List.length_nil,List.length_cons] at ends
  rw [tmalloc0,zeroed_padded,copied]
  refine ⟨?_,by simpa using ends⟩
  simp [PrefixCells.shown,nickShown,userShown,cstring_padded plain (show host.length < w.length + 1 + 1 by omega)]

theorem server_alike (netNick : Str) (clean : nul ∉ w) (room : w.length + 1 < n) :
    ∃ scanned, scanServer netNick (padded n (':' :: w)) (w.length + 1) = some (scanned,w.length + 2) ∧
      scanned.shown = if w = netNick then ⟨none,some w,none,none⟩ else ⟨some w,none,none,none⟩ := by
  have whole : nul ∉ ':' :: w := by simpa [nul] using clean
  have read : text (padded n (':' :: w)) = some (':' :: w) := padded_text whole (by simpa using room)
  have start : Stands (':' :: w) 1 w := (stands_first _).next
  have name : cstring (tstrdup w) = w := by
    rw [cstring,tstrdup,text_ofText clean]
    rfl
  simp only [scanServer,textFrom_stands read start,Option.bind_eq_bind,Option.bind_some]
  by_cases own : w = netNick
  · rw [if_pos own,if_pos own]
    exact ⟨_,rfl,by simp [PrefixCells.shown,name]⟩
  · rw [if_neg own,if_neg own]
    exact ⟨_,rfl,by simp [PrefixCells.shown,name]⟩

theorem origin_alike (netNick : Str) (clean : nul ∉ w) (room : w.length + 1 < n) :
    Alike (fun scanned pre => scanned.1.shown = pre ∧ scanned.2 = w.length + 2)
      (scanOrigin netNick (padded n (':' :: w)) (decide ('!' ∈ w)) (w.length + 1)) (parsePrefix netNick w) := by
  unfold scanOrigin parsePrefix
  by_cases mask : '!' ∈ w
  · rw [if_pos (decide_eq_true mask),if_pos mask]
    exact mask_alike clean room
  · obtain ⟨scanned,scans,shown⟩ := server_alike netNick clean room
    rw [if_neg (by simpa using mask),if_neg mask,scans]
    by_cases own : w = netNick
    · rw [if_pos own] at shown ⊢
      exact ⟨shown,rfl⟩
    · rw [if_neg own] at shown ⊢
      exact ⟨shown,rfl⟩

theorem readPrefix_plain (netNick : Str) (colon : c ≠ ':') (s : Str) : readPrefix netNick (c :: s) = some (none,c :: s) := by
  unfold readPrefix
  split
  · rename_i same
    exact absurd (List.cons.inj same).1 colon
  · rfl

theorem prefix_alike (netNick : Str) (read : text b = some s) :
    Alike (fun scanned parts => scanned.1.map PrefixCells.shown = parts.1 ∧ Stands s scanned.2 parts.2)
      (scanPrefix netNick b) (readPrefix netNick s) := by
  have here := peek_stands read (stands_first s)
  have whole := textFrom_stands read (stands_first s)
  cases s with
  | nil =>
      simp only [scanPrefix,readPrefix,here,Option.bind_eq_bind,Option.bind_some,List.headD_nil,nul]
      rw [if_pos (by decide)]
      exact ⟨rfl,stands_first _⟩
  | cons c s =>
      by_cases colon : c = ':'
      · subst colon
        have bound := text_bound read
        simp only [List.length_cons] at bound
        have copied := tmp_alike (w := []) (n := (':' :: s).length + 1) read (stands_first _) (by simp) false (b.length + 1) (by simp only [List.length_cons]; omega)
        rw [← zeroed_padded,List.length_nil] at copied
        simp only [scanPrefix,readPrefix,here,whole,Option.bind_eq_bind,Option.bind_some,List.headD_cons,ne_eq,not_true_eq_false,if_false]
        rw [tmalloc0]
        generalize tmpFor b (b.length + 1) 0 (zeroed ((':' :: s).length + 1)) false = taken at copied
        by_cases space : ' ' ∈ s
        · obtain ⟨w,back,rfl,plain⟩ := List.eq_append_cons_of_mem space
          have colonPlain : ' ' ∉ ':' :: w := by simpa using plain
          have clean : nul ∉ w := fun member => (cells_of_text read).1 (by simp [member])
          have cleanWord : nul ∉ ':' :: w := by simpa [nul] using clean
          have later : Stands (':' :: (w ++ ' ' :: back)) (w.length + 2) back := ⟨by simp,by simp⟩
          rw [← List.cons_append,takeTo_stop (':' :: w) back colonPlain] at copied
          rw [takeTo_stop w back plain]
          cases taken with
          | none => exact copied.elim
          | some taken =>
              obtain ⟨tmp,which⟩ := taken
              obtain ⟨padded',noted⟩ := copied
              simp only [List.nil_append] at padded' noted
              have size : textFrom tmp 0 = some (':' :: w) := by
                rw [padded']
                exact textFrom_stands (padded_text cleanWord (by simp only [List.length_cons,List.length_append]; omega)) (stands_first _)
              have bang : which = decide ('!' ∈ w) := by simpa using noted
              subst bang padded'
              simp only [Option.bind_some,size,Option.map_some,List.length_cons]
              have room : w.length + 1 < (':' :: (w ++ ' ' :: back)).length + 1 := by
                simp only [List.length_cons,List.length_append]
                omega
              refine (origin_alike netNick clean room).bind ?_
              intro scanned pre alike
              obtain ⟨scanned,m⟩ := scanned
              obtain ⟨shown,place⟩ := alike
              simp only at shown place
              subst shown place
              exact ⟨rfl,later⟩
        · have colonPlain : ' ' ∉ ':' :: s := by simpa using space
          rw [takeTo_none space]
          rw [takeTo_none colonPlain] at copied
          cases taken with
          | none => trivial
          | some taken => exact copied.elim
      · rw [readPrefix_plain netNick colon s]
        simp only [scanPrefix,here,Option.bind_eq_bind,Option.bind_some,List.headD_cons]
        rw [if_pos colon]
        exact ⟨rfl,stands_first _⟩

theorem tokens_parts {cells : Option TokenCells} {t : Option Tokens} (shown : TokensShown cells t) :
    (cells.map (·.slots)).map shownSlots = t.map (·.slots) ∧ (cells.map (·.str)).map cstring = t.map (·.str) := by
  cases cells with
  | none =>
      cases t with
      | none => exact ⟨rfl,rfl⟩
      | some t => cases shown
  | some cells =>
      cases t with
      | none => cases shown
      | some t =>
          have same := Option.some.inj shown
          exact ⟨congrArg some (Prod.mk.inj same).1,congrArg some (Prod.mk.inj same).2⟩

-- The source's parser reads what the list's reads, and leaves its strings where the list's does.
theorem scan_decodes (netNick : Str) (read : text b = some s) : (scanLine netNick b).map DataCells.shown = decode netNick s := by
  have alike : Alike (fun data data' => data.shown = data') (scanLine netNick b) (decode netNick s) := by
    unfold scanLine decode
    refine (prefix_alike netNick read).bind ?_
    intro scanned parts alike
    obtain ⟨pre,m⟩ := scanned
    obtain ⟨pre',rest⟩ := parts
    obtain ⟨shown,stands⟩ := alike
    simp only at shown stands ⊢
    subst shown
    simp only [textFrom_stands read stands,Option.bind_eq_bind,Option.bind_some]
    refine (copy_alike read ' ' (by decide) stands (Nat.lt_succ_self _)).bind ?_
    intro scanned parts alike
    obtain ⟨m,command⟩ := scanned
    obtain ⟨word,rest⟩ := parts
    obtain ⟨stands,-,commandShown⟩ := alike
    simp only at stands commandShown ⊢
    have bound := text_bound read
    have left := stands.next.length
    have space := peek_stands read stands
    have start : StateAlike 0 0 rest.length none none := ⟨rfl,rfl⟩
    refine (scan_alike true read stands.next (fun _ => by simpa using space) start (b.length + 1) (by omega)).bind ?_
    intro scanned parts alike
    obtain ⟨m,params⟩ := scanned
    obtain ⟨params',rest⟩ := parts
    obtain ⟨stands,paramsShown⟩ := alike
    simp only at stands paramsShown ⊢
    have behind : ∃ m', (if rest.headD nul ≠ nul then m + 1 else m) = m' ∧ Stands s m' rest.tail := by
      cases rest with
      | nil => exact ⟨m,by simp,stands⟩
      | cons c rest => exact ⟨m + 1,by simp [stands_clean read stands],stands.next⟩
    obtain ⟨m',skipped,after⟩ := behind
    simp only [peek_stands read stands,Option.bind_some,skipped]
    have left := after.length
    have start : StateAlike 0 0 rest.tail.length none none := ⟨rfl,rfl⟩
    have none' : false = true → peek b (m' - 1) = some ' ' := fun never => by cases never
    refine (scan_alike false read after none' start (b.length + 1) (by omega)).bind ?_
    intro scanned parts alike
    obtain ⟨m,rest⟩ := scanned
    obtain ⟨rest',more⟩ := parts
    obtain ⟨-,restShown⟩ := alike
    have first := tokens_parts paramsShown
    have second := tokens_parts restShown
    simp [Alike,DataCells.shown,commandShown,first,second]
  generalize scanLine netNick b = scanned at alike
  generalize decode netNick s = decoded at alike
  cases scanned with
  | none =>
      cases decoded with
      | none => rfl
      | some data => exact alike.elim
  | some data =>
      cases decoded with
      | none => exact alike.elim
      | some data' => exact congrArg some alike

end

end Trollbot.IrcParse
