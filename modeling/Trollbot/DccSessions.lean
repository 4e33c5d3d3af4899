import Trollbot.Foundation.Links
import Trollbot.DccLogin
import Trollbot.LineIn

namespace Trollbot.DccSessions
open Runs Links LineIn
open DccLogin (DccStatus Setting)

-- A closed socket is none. `net` names the network record the session points to and `user` the
-- place of its record in the user list.
structure DccSession where
  id : Int
  sock : Option Nat
  user : Option Nat
  status : DccStatus
  net : Nat

def value : DccStatus → Nat
  | .waiting => 0
  | .nonblockConnect => 1
  | .waitingConnect => 2
  | .notReady => 3
  | .connected => 4
  | .hasUsername => 5
  | .authenticated => 6

-- A step goes astray when it reads, writes or frees a freed session, or follows links for ever.
-- Every other fault is a crash.
inductive Fault where
  | crash
  | astray
deriving DecidableEq

section
variable {β γ : Type}

def sure (x : Option β) : Except Fault β := x.elim (.error .crash) .ok
def alive (x : Option β) : Except Fault β := x.elim (.error .astray) .ok

@[simp] theorem sure_some (x : β) : sure (some x) = .ok x := rfl
@[simp] theorem sure_none : sure (none : Option β) = .error .crash := rfl
@[simp] theorem alive_some (x : β) : alive (some x) = .ok x := rfl
@[simp] theorem alive_none : alive (none : Option β) = .error .astray := rfl
@[simp] theorem ok_bind (x : β) (f : β → Except Fault γ) : (Except.ok x >>= f) = f x := rfl
@[simp] theorem error_bind (fault : Fault) (f : β → Except Fault γ) : ((Except.error fault : Except Fault β) >>= f) = .error fault := rfl
end

-- Where irc_loop stands: between the start of a pass and its walk over the sessions, at a session
-- or at the end of that walk, in dcc_in with lines still to parse, or past the read of a session.
inductive Place where
  | serving
  | walking (dcc : Option Nat)
  | reading (dcc : Nat) (lines : List Str)
  | checking (dcc : Nat)

def Place.dcc : Place → Option Nat
  | .serving => none
  | .walking dcc => dcc
  | .reading dcc _ => some dcc
  | .checking dcc => some dcc

-- One network. A rehash moves its user and session lists from the record that owned them to that of
-- the new configuration, while irc_loop stays on `net` until its pass ends. The records they
-- left have null lists. `gone` is set once the configuration no longer has the network.
structure Loop where
  g : Setting
  users : List User
  sessions : Heap DccSession
  dccs : Option Nat
  owner : Nat
  net : Nat
  gone : Bool
  buffer : LineBuf
  place : Place

def Loop.start (g : Setting) (users : List User) : Loop :=
  ⟨g,users,[],none,0,0,false,.start,.walking none⟩

def Loop.usersOf (st : Loop) (net : Nat) : List User := if net = st.owner then st.users else []
def Loop.dccsOf (st : Loop) (net : Nat) : Option Nat := if net = st.owner then st.dccs else none

def Loop.bound (st : Loop) : Nat := st.sessions.length + 1

def Loop.session (st : Loop) (dcc : Nat) : Except Fault DccSession := do
  let node ← alive (read st.sessions dcc)
  .ok node.item

def Loop.update (st : Loop) (dcc : Nat) (f : DccSession → DccSession) : Except Fault Loop := do
  let sessions ← alive (setItem st.sessions dcc f)
  .ok { st with sessions := sessions }

-- Its log calls, of a null format with null flags, come back without an entry for any filter.
def dccListDel (h : Heap DccSession) (dccs : Option Nat) (del : Nat) : Except Fault (Heap DccSession × Option Nat) :=
  match dccs with
  | none => .ok (h,none)
  | some first => do
    if ← alive (search h del (h.length + 1) (some first)) then
      let node ← alive (read h del)
      let rest ← alive (unlink h del)
      .ok (rest,node.prev.or node.next)
    else .ok (h,dccs)

def Loop.release (st : Loop) (net dcc : Nat) : Except Fault Loop := do
  let (sessions,dccs) ← dccListDel st.sessions (st.dccsOf net) dcc
  let sessions ← alive (free sessions dcc)
  .ok { st with sessions := sessions, dccs := if net = st.owner then dccs else st.dccs }

def Loop.drop (st : Loop) (dcc : Nat) : Except Fault Loop := do
  let session ← st.session dcc
  let closed ← st.update dcc (fun session => { session with sock := none })
  closed.release session.net dcc

def Loop.lookup (st : Loop) (net : Nat) : Except Fault Loop := do
  let _ ← alive (forward st.sessions st.bound (st.dccsOf net))
  .ok st

-- What the handler of an authenticated line does to the sessions. A rehash may or may not find the
-- network in the new configuration.
inductive Ran where
  | quiet
  | lookup
  | rehash (found : Bool) (g : Setting)

def Loop.eggRehash (st : Loop) (found : Bool) (g : Setting) : Loop :=
  if st.gone || !found then { st with g := g, gone := true }
  else { st with g := g, owner := st.owner + 1 }

def Loop.dccCommandHandler (st : Loop) (session : DccSession) (buffer : Str) (ran : Ran) : Except Fault Loop := do
  let users ← sure (st.g.command st.users buffer)
  let st := { st with users := users }
  match ran with
  | .quiet => .ok st
  | .lookup => st.lookup session.net
  | .rehash found g => .ok (st.eggRehash found g)

def Loop.parseDccLine (st : Loop) (dcc : Nat) (buffer : Str) (ran : Ran) : Except Fault Loop := do
  let session ← st.session dcc
  match session.status with
  | .connected =>
    match (st.usersOf session.net).findIdx? (fun user => user.username = buffer) with
    | none => st.drop dcc
    | some place => do
      let user ← sure st.users[place]?
      if ← sure (eggMatchattr (st.usersOf session.net) user.username ['p']) then
        st.update dcc (fun session => { session with user := some place, status := .hasUsername })
      else st.drop dcc
  | .hasUsername => do
    let place ← sure session.user
    let user ← sure st.users[place]?
    -- without a passhash the session is freed, and then it is read on
    let st ← if user.passhash = none then st.drop dcc else .ok st
    let session ← st.session dcc
    if ← sure (eggPasswdok st.g.createHash (st.usersOf session.net) user.username buffer) then do
      let users ← sure (DccLogin.convertHash st.g st.users place user buffer)
      let st := { st with users := users }
      st.update dcc (fun session => { session with status := .authenticated })
    else st.drop dcc
  | .authenticated => st.dccCommandHandler session buffer ran
  | _ => .ok st

-- The last session's id is left out of the maximum.
def highestId (ids : List Int) : Int := ids.dropLast.foldl max (ids.headD 0)

def Loop.initiateDccChat (st : Loop) (sock : Nat) : Except Fault Loop :=
  let made := st.sessions.length
  match st.dccsOf st.net with
  | none => .ok { st with
      sessions := alloc st.sessions ⟨1,some sock,none,.nonblockConnect,st.net⟩
      dccs := if st.net = st.owner then some made else st.dccs }
  | some here => do
    let first ← alive (rewind st.sessions st.bound here)
    let row ← alive (forward st.sessions st.bound (some first))
    let items ← row.mapM st.session
    let last ← alive row.getLast?
    let id := highestId (items.map (·.id)) + 1
    let sessions ← alive (append (alloc st.sessions ⟨id,some sock,none,.nonblockConnect,st.net⟩) last made)
    .ok { st with sessions := sessions }

def Loop.newDccConnection (st : Loop) (sock : Nat) : Except Fault Loop :=
  let made := st.sessions.length
  let sessions := alloc st.sessions ⟨-1,some sock,none,.notReady,st.net⟩
  match st.dccsOf st.net with
  | none => .ok { st with sessions := sessions, dccs := if st.net = st.owner then some made else st.dccs }
  | some here => do
    let row ← alive (forward st.sessions st.bound (some here))
    let last ← alive row.getLast?
    let sessions ← alive (append sessions last made)
    .ok { st with sessions := sessions }

-- What a session in a descriptor set turns into before select.
def polled (session : DccSession) : DccSession :=
  match session.status with
  | .notReady => if session.sock.isSome then { session with status := .connected } else session
  | .nonblockConnect => { session with status := .waitingConnect }
  | _ => session

-- What happens next. `read` has what recv returned if the socket is readable, `write` what
-- getsockopt gave if it is writable.
inductive Event where
  | poll
  | chat (sock : Nat)
  | accept (sock : Nat)
  | lookup
  | serve
  | read (got : Option Recv)
  | line (ran : Ran)
  | write (valopt : Option (Option Nat))

def Loop.dispose (st : Loop) (dcc : Nat) : Except Fault Loop := do
  let node ← alive (read st.sessions dcc)
  let st ← st.release st.net dcc
  .ok { st with place := .walking node.next }

def Loop.readSession (st : Loop) (dcc : Nat) (got : Option Recv) : Except Fault Loop := do
  let session ← st.session dcc
  if session.sock = none then st.dispose dcc else
  match got with
  | none => .ok { st with place := .checking dcc }
  | some received =>
    if value .notReady < value session.status then do
      let (lines,buffer,result) ← sure (dccIn st.buffer received)
      if result = 0 then do
        let st := { st with buffer := buffer }
        let closed ← st.update dcc (fun session => { session with sock := none })
        closed.dispose dcc
      else .ok { st with buffer := buffer, place := .reading dcc lines }
    else .ok { st with place := .checking dcc }

def Loop.writeSession (st : Loop) (dcc : Nat) (valopt : Option (Option Nat)) : Except Fault Loop := do
  let node ← alive (read st.sessions dcc)
  match node.item.status,valopt with
  | .waitingConnect,some none => st.dispose dcc
  | .waitingConnect,some (some error) =>
    if error ≠ 0 then st.dispose dcc else do
      let st ← st.update dcc (fun session => { session with status := .notReady })
      .ok { st with place := .walking node.next }
  | _,_ => .ok { st with place := .walking node.next }

-- irc_loop. An event that does not belong to where it stands is no step.
def step (st : Loop) (event : Event) : Except Fault Loop :=
  match st.place,event with
  | .walking none,.poll => if st.gone then .ok st else do
    let row ← alive (forward st.sessions st.bound st.dccs)
    let sessions ← alive (row.foldlM (fun h dcc => setItem h dcc polled) st.sessions)
    .ok { st with net := st.owner, sessions := sessions, place := .serving }
  | .serving,.chat sock => st.initiateDccChat sock
  | .serving,.accept sock => st.newDccConnection sock
  | .serving,.lookup => st.lookup st.net
  | .serving,.serve => .ok { st with place := .walking (st.dccsOf st.net) }
  | .walking (some dcc),.read got => st.readSession dcc got
  | .reading dcc (line :: lines),.line ran => { st with place := .reading dcc lines }.parseDccLine dcc line ran
  | .reading dcc [],.line _ => .ok { st with place := .checking dcc }
  | .checking dcc,.write valopt => st.writeSession dcc valopt
  | _,_ => .ok st

def stepOn (st : Loop) (event : Event) : Option Loop := (step st event).toOption

-- Nothing irc_loop can still follow leads to a freed session: not a list, not a link, not its own
-- pointer.
def Clear (st : Loop) : Prop :=
  (∀ a, st.dccs = some a → (read st.sessions a).isSome) ∧
  (∀ a node b, read st.sessions a = some node → node.prev = some b ∨ node.next = some b → (read st.sessions b).isSome) ∧
  ∀ a, st.place.dcc = some a → (read st.sessions a).isSome

-- The step does not go astray, and leaves every freed session unlinked.
def Kept (st : Loop) (event : Event) : Prop :=
  match step st event with
  | .ok next => Clear next
  | .error fault => fault = .crash

-- parse_dcc_line drops the session: no such user, no flag p, no passhash or not the password.
def drops (st : Loop) (session : DccSession) (buffer : Str) : Bool :=
  match session.status with
  | .connected =>
    match (st.usersOf session.net).findIdx? (fun user => user.username = buffer) with
    | none => true
    | some place => st.users[place]?.any (fun user => eggMatchattr (st.usersOf session.net) user.username ['p'] == some false)
  | .hasUsername => (session.user.bind (fun place => st.users[place]?)).any (fun user => user.passhash.isNone ||
      eggPasswdok st.g.createHash (st.usersOf session.net) user.username buffer == some false)
  | _ => false

-- irc_loop drops the session: it is closed, its peer hangs up or its connect has failed.
def hangs (st : Loop) (session : DccSession) (got : Option Recv) : Bool :=
  session.sock.isNone || (decide (value .notReady < value session.status) &&
    (got.bind (fun received => dccIn st.buffer received)).any (fun result => result.2.2 == 0))

def fails (session : DccSession) (valopt : Option (Option Nat)) : Bool :=
  decide (session.status = .waitingConnect) && valopt.any (fun error => error != some 0)

-- No line drops its session, and irc_loop drops none that a rehash has moved in the same pass.
def Allowed (st : Loop) (event : Event) : Prop :=
  match st.place,event with
  | .reading dcc (line :: _),.line _ => ∀ node, read st.sessions dcc = some node →
      drops st node.item line = false
  | .walking (some dcc),.read got => ∀ node, read st.sessions dcc = some node →
      hangs st node.item got = true → st.net = st.owner
  | .checking dcc,.write valopt => ∀ node, read st.sessions dcc = some node →
      fails node.item valopt = true → st.net = st.owner
  | _,_ => True

-- The list in order, split at the session irc_loop is at. net->dccs need not be its first session,
-- but never lies beyond that one.
structure Tracks (st : Loop) (pre post : List Nat) : Prop where
  whole : Whole st.sessions (pre ++ post)
  here : st.place.dcc = post.head?
  list : (st.dccs = none ∧ pre ++ post = []) ∨ ∃ a, st.dccs = some a ∧ a ∈ pre ++ post.take 1
  serves : st.place = .serving → st.net = st.owner

def Good (st : Loop) : Prop := ∃ pre post, Tracks st pre post

section
variable {st next : Loop}

theorem tracks_clear (tracks : Tracks st pre post) : Clear st := by
  obtain ⟨⟨seg,nodup,all⟩,here,list,-⟩ := tracks
  refine ⟨?_,?_,?_⟩
  · intro a first
    rcases list with ⟨empty,-⟩ | ⟨b,same,member⟩
    · rw [empty] at first
      cases first
    · rw [same,Option.some.injEq] at first
      subst first
      rcases List.mem_append.mp member with before | next
      · exact seg_member seg (List.mem_append_left _ before)
      · exact seg_member seg (List.mem_append_right _ (List.mem_of_mem_take next))
  · intro a node b found link
    exact seg_member seg (seg_neighbour seg (all a (by simp [found])) found link)
  · intro a held
    rw [here] at held
    exact seg_member seg (List.mem_append_right _ (List.mem_of_head? held))

-- From net->dccs the session irc_loop is at is always found.
theorem search_reaches (tracks : Tracks st pre (dcc :: post)) :
    ∃ first, st.dccs = some first ∧ search st.sessions dcc st.bound (some first) = some true := by
  rcases tracks.list with ⟨-,empty⟩ | ⟨first,same,member⟩
  · simp at empty
  · refine ⟨first,same,?_⟩
    have long := whole_length tracks.whole
    have seg := tracks.whole.1
    rw [List.take_succ_cons,List.take_zero] at member
    rcases List.mem_append.mp member with before | next
    · obtain ⟨front,back,rfl⟩ := List.append_of_mem before
      rw [List.append_assoc] at seg
      have rear := ((seg_append front _).mp seg).2
      have found := @search_finds _ _ (first :: back) _ _ _ _ st.bound rear (by simp [Loop.bound] at long ⊢; omega)
      simpa using found
    · obtain rfl := List.mem_singleton.mp next
      simp [Loop.bound,search]

-- irc_loop or parse_dcc_line frees the session it is at from the list that holds it.
theorem release_keeps (tracks : Tracks st pre (dcc :: post)) (owns : net = st.owner) :
    ∃ node next, read st.sessions dcc = some node ∧ node.next = post.head? ∧ st.release net dcc = .ok next ∧
      Tracks { next with place := .walking post.head? } pre post ∧ read next.sessions dcc = none ∧ next.place = st.place := by
  obtain ⟨first,list,found⟩ := search_reaches tracks
  obtain ⟨node,bare,rest,here,prev,onward,unlinked,freed,whole⟩ := whole_remove tracks.whole
  refine ⟨node,{ st with sessions := rest, dccs := node.prev.or node.next },here,onward,?_,?_,?_,rfl⟩
  · simp only [Loop.bound] at found
    simp [Loop.release,Loop.dccsOf,owns,list,dccListDel,found,here,unlinked,freed]
  · refine ⟨whole,rfl,?_,fun same => by cases same⟩
    simp only [prev,onward]
    rcases List.eq_nil_or_concat pre with rfl | ⟨front,z,rfl⟩
    · cases post with
      | nil => exact .inl ⟨rfl,rfl⟩
      | cons q more => exact .inr ⟨q,rfl,by simp⟩
    · exact .inr ⟨z,by simp,by simp⟩
  · rw [read_free freed,if_pos rfl]

theorem tracks_moved (tracks : Tracks st pre post) (sessions : next.sessions = st.sessions) (dccs : next.dccs = st.dccs)
    (place : next.place.dcc = post.head?) (away : next.place ≠ .serving) : Tracks next pre post := by
  refine ⟨?_,place,?_,fun same => absurd same away⟩
  · rw [sessions]
    exact tracks.whole
  · rw [dccs]
    exact tracks.list

theorem tracks_advance (tracks : Tracks st pre (dcc :: post)) (sessions : next.sessions = st.sessions) (dccs : next.dccs = st.dccs)
    (place : next.place = .walking post.head?) : Tracks next (pre ++ [dcc]) post := by
  refine ⟨?_,by rw [place]; rfl,?_,fun same => by rw [place] at same; cases same⟩
  · rw [sessions,List.append_assoc]
    exact tracks.whole
  · rw [dccs]
    rcases tracks.list with ⟨-,empty⟩ | ⟨a,first,member⟩
    · simp at empty
    · exact .inr ⟨a,first,List.mem_append_left _ (by simpa using member)⟩

theorem update_keeps (tracks : Tracks st pre post) (dcc : Nat) (member : dcc ∈ pre ++ post) (f : DccSession → DccSession) :
    ∃ sessions, st.update dcc f = .ok { st with sessions := sessions } ∧ Tracks { st with sessions := sessions } pre post := by
  obtain ⟨sessions,wrote⟩ := write_runs (seg_member tracks.whole.1 member) (fun node : Node DccSession => { node with item := f node.item })
  have set : setItem st.sessions dcc f = some sessions := wrote
  exact ⟨sessions,by simp [Loop.update,set],whole_setItem tracks.whole set,tracks.here,tracks.list,tracks.serves⟩

theorem held_session (tracks : Tracks st pre (dcc :: post)) :
    ∃ node, read st.sessions dcc = some node ∧ node.next = post.head? ∧ st.session dcc = .ok node.item := by
  obtain ⟨node,here,-,next,-⟩ := ((seg_append pre (dcc :: post)).mp tracks.whole.1).2
  exact ⟨node,here,by rw [next,Option.or_none],by simp [Loop.session,here]⟩

-- Freed through a record whose lists a rehash has taken away, the session stays linked.
theorem release_moved (dcc : Nat) (live : (read st.sessions dcc).isSome) (moved : net ≠ st.owner) :
    ∃ sessions, free st.sessions dcc = some sessions ∧ st.release net dcc = .ok { st with sessions := sessions } := by
  obtain ⟨sessions,freed⟩ := free_runs live
  exact ⟨sessions,freed,by simp [Loop.release,Loop.dccsOf,moved,dccListDel,freed]⟩

theorem drop_frees (tracks : Tracks st pre (dcc :: post)) (here : read st.sessions dcc = some node) :
    ∃ next, st.drop dcc = .ok next ∧ read next.sessions dcc = none ∧ next.place = st.place := by
  obtain ⟨sessions,closed,keeps⟩ := update_keeps tracks dcc (by simp) (fun session => { session with sock := none })
  have dropped : st.drop dcc = { st with sessions := sessions }.release node.item.net dcc := by
    simp [Loop.drop,Loop.session,here,closed]
  rw [dropped]
  by_cases owns : node.item.net = st.owner
  · obtain ⟨_,next,-,-,released,-,gone,place⟩ := release_keeps keeps owns
    exact ⟨next,released,gone,place⟩
  · obtain ⟨rest,freed,released⟩ := release_moved dcc (seg_member keeps.whole.1 (by simp)) owns
    have freed' : read rest dcc = none := by rw [read_free freed,if_pos rfl]
    exact ⟨{ st with sessions := rest },released,freed',rfl⟩

theorem forward_list (tracks : Tracks st pre post) (net : Nat) :
    ∃ row, forward st.sessions st.bound (st.dccsOf net) = some row ∧ (∀ a ∈ row, a ∈ pre ++ post) ∧
      ∀ first, st.dccsOf net = some first → row.getLast? = (pre ++ post).getLast? := by
  have long := whole_length tracks.whole
  have nothing : forward st.sessions st.bound none = some [] := rfl
  by_cases owns : net = st.owner
  · rw [Loop.dccsOf,if_pos owns]
    rcases tracks.list with ⟨empty,-⟩ | ⟨first,same,member⟩
    · rw [empty]
      exact ⟨[],nothing,by simp,by simp⟩
    · have inside : first ∈ pre ++ post := by
        rcases List.mem_append.mp member with before | next
        · exact List.mem_append_left _ before
        · exact List.mem_append_right _ (List.mem_of_mem_take next)
      obtain ⟨front,back,whole⟩ := List.append_of_mem inside
      have seg := tracks.whole.1
      rw [whole] at seg long ⊢
      have walked := forward_walks st.bound ((seg_append front (first :: back)).mp seg).2 (by simp [Loop.bound] at long ⊢; omega)
      refine ⟨first :: back,by simpa [same] using walked,fun a member => List.mem_append_right _ member,?_⟩
      intro _ _
      simp [List.getLast?_cons]
  · rw [Loop.dccsOf,if_neg owns]
    exact ⟨[],nothing,by simp,by simp⟩

theorem lookup_same (tracks : Tracks st pre post) (net : Nat) : st.lookup net = .ok st := by
  obtain ⟨row,walked,-⟩ := forward_list tracks net
  simp [Loop.lookup,walked]

-- A line that drops its session runs parse_dcc_line's drop, and at most reads the session after it.
theorem parse_drops (here : read st.sessions dcc = some node) (dropped : drops st node.item buffer = true) (ran : Ran) :
    ∃ later : Loop → Except Fault Loop, st.parseDccLine dcc buffer ran = (st.drop dcc >>= later) ∧
      ∀ next : Loop, read next.sessions dcc = none → later next = .ok next ∨ later next = .error .astray := by
  have bare : ∀ result : Except Fault Loop, (result >>= .ok) = result := by
    intro result
    cases result <;> rfl
  have session : st.session dcc = .ok node.item := by simp [Loop.session,here]
  cases status : node.item.status with
  | connected =>
      refine ⟨.ok,?_,fun _ _ => .inl rfl⟩
      rw [bare]
      simp only [drops,status] at dropped
      simp only [Loop.parseDccLine,session,ok_bind,status]
      cases found : (st.usersOf node.item.net).findIdx? (fun user => user.username = buffer) with
      | none => rfl
      | some place =>
          simp only [found] at dropped ⊢
          cases known : st.users[place]? with
          | none => simp [known] at dropped
          | some user =>
              simp only [known,Option.any_some,beq_iff_eq] at dropped
              simp [dropped]
  | hasUsername =>
      simp only [drops,status] at dropped
      cases bound : node.item.user with
      | none => simp [bound] at dropped
      | some place =>
          simp only [bound,Option.bind_some] at dropped
          cases found : st.users[place]? with
          | none => simp [found] at dropped
          | some user =>
              simp only [found,Option.any_some,Bool.or_eq_true,Option.isNone_iff_eq_none,beq_iff_eq] at dropped
              simp only [Loop.parseDccLine,session,ok_bind,status,bound,sure_some,found]
              by_cases nothing : user.passhash = none
              · rw [if_pos nothing]
                refine ⟨_,rfl,?_⟩
                intro next freed
                exact .inr (by simp [Loop.session,freed])
              · have wrong : eggPasswdok st.g.createHash (st.usersOf node.item.net) user.username buffer = some false :=
                  dropped.resolve_left nothing
                refine ⟨.ok,?_,fun _ _ => .inl rfl⟩
                rw [bare]
                simp [nothing,wrong]
  | _ => simp [drops,status] at dropped

theorem parse_goes (tracks : Tracks st pre (dcc :: post)) (away : st.place ≠ .serving) (here : read st.sessions dcc = some node)
    (stays : drops st node.item buffer = false) (ran : Ran) :
    st.parseDccLine dcc buffer ran = .error .crash ∨ ∃ next, st.parseDccLine dcc buffer ran = .ok next ∧ Tracks next pre (dcc :: post) := by
  have session : st.session dcc = .ok node.item := by simp [Loop.session,here]
  have inside : dcc ∈ pre ++ dcc :: post := by simp
  cases status : node.item.status with
  | connected =>
      simp only [drops,status] at stays
      simp only [Loop.parseDccLine,session,ok_bind,status]
      cases found : (st.usersOf node.item.net).findIdx? (fun user => user.username = buffer) with
      | none => simp [found] at stays
      | some place =>
          simp only [found] at stays ⊢
          cases known : st.users[place]? with
          | none => exact .inl rfl
          | some user =>
              simp only [known,Option.any_some,sure_some,ok_bind] at stays ⊢
              cases allowed : eggMatchattr (st.usersOf node.item.net) user.username ['p'] with
              | none => exact .inl rfl
              | some allowed' =>
                  cases allowed' with
                  | false => simp [allowed] at stays
                  | true =>
                      obtain ⟨sessions,updated,keeps⟩ := update_keeps tracks _ inside
                        (fun session => { session with user := some place, status := .hasUsername })
                      exact .inr ⟨_,by simpa using updated,keeps⟩
  | hasUsername =>
      simp only [drops,status] at stays
      simp only [Loop.parseDccLine,session,ok_bind,status]
      cases bound : node.item.user with
      | none => exact .inl rfl
      | some place =>
          simp only [bound,Option.bind_some,sure_some,ok_bind] at stays ⊢
          cases found : st.users[place]? with
          | none => exact .inl rfl
          | some user =>
              simp only [found,Option.any_some,Bool.or_eq_false_iff,Option.isNone_eq_false_iff,sure_some,ok_bind] at stays ⊢
              rw [if_neg (Option.isSome_iff_ne_none.mp stays.1)]
              cases right : eggPasswdok st.g.createHash (st.usersOf node.item.net) user.username buffer with
              | none => exact .inl rfl
              | some right' =>
                  cases right' with
                  | false => simp [right] at stays
                  | true =>
                      simp only [sure_some,ok_bind,if_true]
                      cases converted : DccLogin.convertHash st.g st.users place user buffer with
                      | none => exact .inl rfl
                      | some users =>
                          have moved : Tracks { st with users := users } pre (dcc :: post) := tracks_moved tracks rfl rfl tracks.here away
                          obtain ⟨sessions,updated,keeps⟩ := update_keeps moved _ inside
                            (fun session => { session with status := .authenticated })
                          exact .inr ⟨_,by simpa using updated,keeps⟩
  | authenticated =>
      simp only [Loop.parseDccLine,session,ok_bind,status,Loop.dccCommandHandler]
      cases st.g.command st.users buffer with
      | none => exact .inl rfl
      | some users =>
          have moved : Tracks { st with users := users } pre (dcc :: post) := tracks_moved tracks rfl rfl tracks.here away
          cases ran with
          | quiet => exact .inr ⟨_,rfl,moved⟩
          | lookup => exact .inr ⟨_,lookup_same moved _,moved⟩
          | rehash found g =>
              refine .inr ⟨_,rfl,?_⟩
              unfold Loop.eggRehash
              split
              · exact tracks_moved moved rfl rfl moved.here away
              · exact tracks_moved moved rfl rfl moved.here away
  | _ => exact .inr ⟨st,by simp [Loop.parseDccLine,session,status],tracks⟩

theorem poll_keeps (tracks : Tracks st pre []) :
    ∃ sessions, (do
      let row ← alive (forward st.sessions st.bound st.dccs)
      let sessions ← alive (row.foldlM (fun h dcc => setItem h dcc polled) st.sessions)
      (.ok { st with net := st.owner, sessions := sessions, place := .serving } : Except Fault Loop)) =
        .ok { st with net := st.owner, sessions := sessions, place := .serving } ∧
      Tracks { st with net := st.owner, sessions := sessions, place := .serving } pre [] := by
  obtain ⟨row,walked,inside,-⟩ := forward_list tracks st.owner
  obtain ⟨sessions,set,whole⟩ := whole_setAll polled tracks.whole inside
  rw [Loop.dccsOf,if_pos rfl] at walked
  exact ⟨sessions,by simp [walked,set],whole,rfl,tracks.list,fun _ => rfl⟩

theorem items_read (st : Loop) {row : List Nat} (live : ∀ a ∈ row, (read st.sessions a).isSome) : ∃ items, row.mapM st.session = .ok items := by
  induction row with
  | nil => exact ⟨[],rfl⟩
  | cons a rest ih =>
      obtain ⟨node,here⟩ := Option.isSome_iff_exists.mp (live a (by simp))
      obtain ⟨items,more⟩ := ih (fun b member => live b (by simp [member]))
      have session : st.session a = .ok node.item := by simp [Loop.session,here]
      exact ⟨node.item :: items,by simp [List.mapM_cons,session,more,pure,Except.pure]⟩

theorem first_joins (tracks : Tracks st [] []) (serving : st.place = .serving) (x : DccSession) :
    Tracks { st with sessions := alloc st.sessions x, dccs := if st.net = st.owner then some st.sessions.length else st.dccs }
      [st.sessions.length] [] := by
  have owns := tracks.serves serving
  refine ⟨whole_alloc tracks.whole x,tracks.here,?_,fun _ => owns⟩
  exact .inr ⟨st.sessions.length,if_pos owns,by simp⟩

theorem last_joins (tracks : Tracks st (front ++ [z]) []) (x : DccSession) :
    ∃ sessions, append (alloc st.sessions x) z st.sessions.length = some sessions ∧
      Tracks { st with sessions := sessions } (front ++ [z] ++ [st.sessions.length]) [] := by
  obtain ⟨sessions,linked,grown⟩ := whole_append (List.append_nil (front ++ [z]) ▸ tracks.whole) x
  refine ⟨sessions,linked,by simpa using grown,tracks.here,?_,tracks.serves⟩
  rcases tracks.list with ⟨-,nothing⟩ | ⟨here,first,member⟩
  · simp at nothing
  · exact .inr ⟨here,first,List.mem_append_left _ (List.mem_append_left _ (by simpa using member))⟩

theorem list_cases (tracks : Tracks st pre []) (serving : st.place = .serving) :
    (st.dccsOf st.net = none ∧ pre = []) ∨
    ∃ here front z row, st.dccsOf st.net = some here ∧ here ∈ pre ∧ pre = front ++ [z] ∧
      forward st.sessions st.bound (some here) = some row ∧ row.getLast? = some z := by
  obtain ⟨row,walked,-,ends⟩ := forward_list tracks st.net
  rw [Loop.dccsOf,if_pos (tracks.serves serving)] at walked ends ⊢
  rcases tracks.list with ⟨empty,nothing⟩ | ⟨here,first,member⟩
  · exact .inl ⟨empty,by simpa using nothing⟩
  · have inside : here ∈ pre := by simpa using member
    rcases List.eq_nil_or_concat pre with rfl | ⟨front,z,rfl⟩
    · cases inside
    · refine .inr ⟨here,front,z,row,first,inside,by simp,by rw [← first]; exact walked,?_⟩
      simpa using ends here first

theorem accept_keeps (tracks : Tracks st pre []) (serving : st.place = .serving) (sock : Nat) :
    ∃ next made, st.newDccConnection sock = .ok next ∧ Tracks next (pre ++ [made]) [] := by
  unfold Loop.newDccConnection
  rcases list_cases tracks serving with ⟨empty,rfl⟩ | ⟨here,front,z,row,first,-,rfl,walked,last⟩
  · simp only [empty]
    exact ⟨_,_,rfl,first_joins tracks serving _⟩
  · obtain ⟨sessions,linked,grown⟩ := last_joins tracks ⟨-1,some sock,none,.notReady,st.net⟩
    refine ⟨_,_,?_,grown⟩
    simp only [first,walked,last,linked,alive_some,ok_bind]

theorem chat_keeps (tracks : Tracks st pre []) (serving : st.place = .serving) (sock : Nat) :
    ∃ next made, st.initiateDccChat sock = .ok next ∧ Tracks next (pre ++ [made]) [] := by
  have long := whole_length tracks.whole
  have enough : pre.length < st.bound := by simp [Loop.bound] at long ⊢; omega
  unfold Loop.initiateDccChat
  rcases list_cases tracks serving with ⟨empty,rfl⟩ | ⟨here,front,z,row,first,member,rfl,-,-⟩
  · simp only [empty]
    exact ⟨_,_,rfl,first_joins tracks serving _⟩
  · have whole : Whole st.sessions (front ++ [z]) := List.append_nil (front ++ [z]) ▸ tracks.whole
    have back := rewind_first whole member enough
    have row := forward_walks _ whole.1 enough
    obtain ⟨items,listed⟩ := items_read st (fun a inside => seg_member whole.1 inside)
    cases head : (front ++ [z]).head? with
    | none => simp at head
    | some top =>
        rw [head] at back row
        obtain ⟨sessions,linked,grown⟩ := last_joins tracks ⟨highestId (items.map (·.id)) + 1,some sock,none,.nonblockConnect,st.net⟩
        refine ⟨_,_,?_,grown⟩
        have last : (front ++ [z]).getLast? = some z := by simp
        simp only [first,back,row,listed,last,linked,alive_some,ok_bind]

theorem dispose_cases (tracks : Tracks st pre (dcc :: post)) :
    (st.net = st.owner ∧ ∃ next, st.dispose dcc = .ok next ∧ Tracks next pre post) ∨
    (st.net ≠ st.owner ∧ ∃ next, st.dispose dcc = .ok next ∧ ¬Clear next) := by
  obtain ⟨node,here,onward,-⟩ := held_session tracks
  by_cases owns : st.net = st.owner
  · obtain ⟨same,next,found,link,released,keeps,-,-⟩ := release_keeps tracks owns
    rw [here,Option.some.injEq] at found
    subst found
    exact .inl ⟨owns,_,by simp [Loop.dispose,here,released,onward],keeps⟩
  · obtain ⟨sessions,freed,released⟩ := release_moved dcc (by simp [here]) owns
    refine .inr ⟨owns,{ st with sessions := sessions, place := .walking node.next },by simp [Loop.dispose,here,released],?_⟩
    rintro ⟨lists,links,-⟩
    have gone : read sessions dcc = none := by rw [read_free freed,if_pos rfl]
    rcases List.eq_nil_or_concat pre with rfl | ⟨front,z,rfl⟩
    · rcases tracks.list with ⟨-,empty⟩ | ⟨a,first,member⟩
      · simp at empty
      · obtain rfl : a = dcc := by simpa using member
        have live := lists a first
        simp [gone] at live
    · rw [List.concat_eq_append] at tracks
      have seg := tracks.whole.1
      obtain ⟨before,there,-,next,-⟩ := ((seg_append front [z]).mp ((seg_append (front ++ [z]) (dcc :: post)).mp seg).1).2
      have apart : z ≠ dcc := fun same => (List.nodup_append.mp tracks.whole.2.1).2.2 z (by simp) dcc (by simp) same
      have live := links z before dcc (by rw [read_free freed,if_neg apart,there]) (.inr (by simpa using next))
      simp [gone] at live

-- What a step gives: the list goes on whole, a crash, or a freed session that is still linked.
def Outcome (result : Except Fault Loop) (allowed : Prop) : Prop :=
  (allowed ∧ (result = .error .crash ∨ ∃ next, result = .ok next ∧ Good next)) ∨
  (¬allowed ∧ (result = .error .astray ∨ ∃ next, result = .ok next ∧ ¬Clear next))

theorem outcome_ok {allowed : Prop} (allows : allowed) (tracks : Tracks next pre post) : Outcome (.ok next) allowed :=
  .inl ⟨allows,.inr ⟨next,rfl,pre,post,tracks⟩⟩

theorem dispose_outcome (tracks : Tracks st pre (dcc :: post)) :
    Outcome (st.dispose dcc) (st.net = st.owner) := by
  rcases dispose_cases tracks with ⟨owns,next,done,keeps⟩ | ⟨moved,next,done,dangles⟩
  · exact .inl ⟨owns,.inr ⟨next,done,pre,post,keeps⟩⟩
  · exact .inr ⟨moved,.inr ⟨next,done,dangles⟩⟩

theorem line_outcome (tracks : Tracks st pre (dcc :: post)) (here : read st.sessions dcc = some node)
    (reading : st.place = .reading dcc lines) (buffer : Str) (ran : Ran) :
    Outcome (st.parseDccLine dcc buffer ran) (drops st node.item buffer = false) := by
  have away : st.place ≠ .serving := by simp [reading]
  cases dropped : drops st node.item buffer with
  | false =>
      rcases parse_goes tracks away here dropped ran with crash | ⟨next,done,keeps⟩
      · exact .inl ⟨rfl,.inl crash⟩
      · exact .inl ⟨rfl,.inr ⟨next,done,pre,_,keeps⟩⟩
  | true =>
      obtain ⟨later,parsed,after⟩ := parse_drops here dropped ran
      obtain ⟨next,done,freed,place⟩ := drop_frees tracks here
      refine .inr ⟨by simp,?_⟩
      rcases after next freed with goes | astray
      · refine .inr ⟨next,by rw [parsed,done]; exact goes,?_⟩
        rintro ⟨-,-,held⟩
        have live := held dcc (by rw [place,reading]; rfl)
        simp [freed] at live
      · exact .inl (by rw [parsed,done]; exact astray)

theorem outcome_needed {p allowed : Prop} (outcome : Outcome result allowed) (holds : p) : Outcome result (p → allowed) := by
  rcases outcome with ⟨allows,fine⟩ | ⟨refused,bad⟩
  · exact .inl ⟨fun _ => allows,fine⟩
  · exact .inr ⟨fun needs => refused (needs holds),bad⟩

theorem read_outcome (tracks : Tracks st pre (dcc :: post)) (here : read st.sessions dcc = some node)
    (got : Option Recv) :
    Outcome (st.readSession dcc got) (hangs st node.item got = true → st.net = st.owner) := by
  have session : st.session dcc = .ok node.item := by simp [Loop.session,here]
  have goes : ∀ next : Loop, next.sessions = st.sessions → next.dccs = st.dccs → next.place.dcc = some dcc →
      next.place ≠ .serving → Tracks next pre (dcc :: post) := by
    intro next sessions dccs place away
    exact tracks_moved tracks sessions dccs place away
  simp only [Loop.readSession,session,ok_bind]
  cases sock : node.item.sock with
  | none =>
      rw [if_pos rfl]
      exact outcome_needed (dispose_outcome tracks) (by simp [hangs,sock])
  | some fd =>
      rw [if_neg (by simp)]
      cases got with
      | none => exact outcome_ok (by simp [hangs,sock]) (goes _ rfl rfl rfl (by simp))
      | some received =>
          by_cases late : value .notReady < value node.item.status
          · simp only [if_pos late]
            cases taken : dccIn st.buffer received with
            | none => exact .inl ⟨by simp [hangs,sock,taken],.inl rfl⟩
            | some result =>
                obtain ⟨lines,buffer,code⟩ := result
                simp only [sure_some,ok_bind]
                by_cases closed : code = 0
                · rw [if_pos closed]
                  have filled : Tracks { st with buffer := buffer } pre (dcc :: post) :=
                    ⟨tracks.whole,tracks.here,tracks.list,tracks.serves⟩
                  obtain ⟨sessions,shut,keeps⟩ := update_keeps filled dcc (by simp) (fun session => { session with sock := none })
                  rw [shut,ok_bind]
                  exact outcome_needed (dispose_outcome keeps) (by simp [hangs,sock,late,taken,closed])
                · rw [if_neg closed]
                  exact outcome_ok (by simp [hangs,sock,taken,closed]) (goes _ rfl rfl rfl (by simp))
          · simp only [if_neg late]
            exact outcome_ok (by simp [hangs,sock,late]) (goes _ rfl rfl rfl (by simp))

theorem write_outcome (tracks : Tracks st pre (dcc :: post)) (here : read st.sessions dcc = some node)
    (valopt : Option (Option Nat)) :
    Outcome (st.writeSession dcc valopt) (fails node.item valopt = true → st.net = st.owner) := by
  obtain ⟨node',same,onward,-⟩ := held_session tracks
  rw [here,Option.some.injEq] at same
  subst same
  have advanced : ∀ next : Loop, next.sessions = st.sessions → next.dccs = st.dccs → next.place = .walking node.next →
      Tracks next (pre ++ [dcc]) post := by
    intro next sessions dccs place
    exact tracks_advance tracks sessions dccs (by rw [place,onward])
  simp only [Loop.writeSession,here,alive_some,ok_bind]
  by_cases waiting : node.item.status = .waitingConnect
  · cases valopt with
    | none =>
        simp only [waiting]
        exact outcome_ok (by simp [fails]) (advanced _ rfl rfl rfl)
    | some error =>
        cases error with
        | none =>
            simp only [waiting]
            exact outcome_needed (dispose_outcome tracks) (by simp [fails,waiting])
        | some error =>
            simp only [waiting]
            by_cases refused : error ≠ 0
            · rw [if_pos refused]
              exact outcome_needed (dispose_outcome tracks) (by simp [fails,waiting,refused])
            · obtain ⟨sessions,updated,keeps⟩ := update_keeps tracks dcc (by simp) (fun session => { session with status := .notReady })
              rw [if_neg refused,updated,ok_bind]
              exact outcome_ok (by simp [fails,not_not.mp refused]) (tracks_advance keeps rfl rfl (by rw [onward]))
  · have quiet : fails node.item valopt = false := by simp [fails,waiting]
    split
    · exact absurd ‹_› waiting
    · exact absurd ‹_› waiting
    · exact outcome_ok (by simp [quiet]) (advanced _ rfl rfl rfl)

theorem held_first (tracks : Tracks st pre post) (held : st.place.dcc = some dcc) :
    ∃ rest node, post = dcc :: rest ∧ read st.sessions dcc = some node := by
  obtain ⟨rest,rfl⟩ := List.head?_eq_some_iff.mp (tracks.here.symm.trans held)
  obtain ⟨node,here,-,-⟩ := held_session tracks
  exact ⟨rest,node,rfl,here⟩

theorem step_outcome (good : Good st) (event : Event) : Outcome (step st event) (Allowed st event) := by
  obtain ⟨pre,post,tracks⟩ := good
  have same : Outcome (.ok st) True := outcome_ok trivial tracks
  cases place : st.place with
  | serving =>
      obtain rfl : post = [] := List.head?_eq_none_iff.mp (by rw [← tracks.here,place]; rfl)
      cases event with
      | chat sock =>
          obtain ⟨next,made,joined,keeps⟩ := chat_keeps tracks place sock
          simp only [step,Allowed,place,joined]
          exact outcome_ok trivial keeps
      | accept sock =>
          obtain ⟨next,made,joined,keeps⟩ := accept_keeps tracks place sock
          simp only [step,Allowed,place,joined]
          exact outcome_ok trivial keeps
      | lookup =>
          simp only [step,Allowed,place,lookup_same tracks]
          exact same
      | serve =>
          simp only [step,Allowed,place,Loop.dccsOf,if_pos (tracks.serves place)]
          rcases tracks.list with ⟨empty,nothing⟩ | ⟨first,list,member⟩
          · exact .inl ⟨trivial,.inr ⟨_,rfl,pre,[],tracks.whole,by rw [empty]; rfl,tracks.list,by simp⟩⟩
          · obtain ⟨front,back,split⟩ := List.append_of_mem (by simpa using member : first ∈ pre)
            have whole := tracks.whole
            rw [List.append_nil,split] at whole
            exact .inl ⟨trivial,.inr ⟨_,rfl,front,first :: back,whole,by rw [list]; rfl,.inr ⟨first,list,by simp⟩,by simp⟩⟩
      | _ =>
          simp only [step,Allowed,place]
          exact same
  | walking dcc =>
      cases dcc with
      | none =>
          obtain rfl : post = [] := List.head?_eq_none_iff.mp (by rw [← tracks.here,place]; rfl)
          cases event with
          | poll =>
              simp only [step,Allowed,place]
              split
              · exact same
              · obtain ⟨sessions,done,keeps⟩ := poll_keeps tracks
                rw [done]
                exact outcome_ok trivial keeps
          | _ =>
              simp only [step,Allowed,place]
              exact same
      | some dcc =>
          obtain ⟨rest,node,rfl,here⟩ := held_first tracks (by rw [place]; rfl : st.place.dcc = some dcc)
          cases event with
          | read got =>
              simpa only [step,Allowed,place,here,Option.some.injEq,forall_eq'] using read_outcome tracks here got
          | _ =>
              simp only [step,Allowed,place]
              exact same
  | reading dcc lines =>
      obtain ⟨rest,node,rfl,here⟩ := held_first tracks (by rw [place]; rfl : st.place.dcc = some dcc)
      cases event with
      | line ran =>
          cases lines with
          | nil =>
              simp only [step,Allowed,place]
              exact outcome_ok trivial (tracks_moved tracks rfl rfl rfl (by simp))
          | cons line lines =>
              have moved : Tracks { st with place := .reading dcc lines } pre (dcc :: rest) := tracks_moved tracks rfl rfl rfl (by simp)
              simp only [step,Allowed,place,here,Option.some.injEq,forall_eq']
              exact line_outcome moved here rfl line ran
      | _ =>
          simp only [step,Allowed,place]
          exact same
  | checking dcc =>
      obtain ⟨rest,node,rfl,here⟩ := held_first tracks (by rw [place]; rfl : st.place.dcc = some dcc)
      cases event with
      | write valopt =>
          simpa only [step,Allowed,place,here,Option.some.injEq,forall_eq'] using write_outcome tracks here valopt
      | _ =>
          simp only [step,Allowed,place]
          exact same

theorem kept_iff (good : Good st) (event : Event) : Kept st event ↔ Allowed st event := by
  unfold Kept
  rcases step_outcome good event with ⟨allows,crash | ⟨next,done,pre,post,keeps⟩⟩ | ⟨refused,astray | ⟨next,done,dangles⟩⟩
  · simp [crash,allows]
  · rw [done]
    exact iff_of_true (tracks_clear keeps) allows
  · simp [astray,refused]
  · rw [done]
    exact iff_of_false dangles refused

theorem step_good (good : Good st) (kept : Kept st event) (taken : stepOn st event = some next) : Good next := by
  rcases step_outcome good event with ⟨-,crash | ⟨after,done,keeps⟩⟩ | ⟨refused,-⟩
  · rw [stepOn,crash] at taken
    cases taken
  · rw [stepOn,done] at taken
    cases taken
    exact keeps
  · exact absurd ((kept_iff good event).mp kept) refused

theorem start_good (g : Setting) (users : List User) : Good (.start g users) := by
  refine ⟨[],[],⟨trivial,List.nodup_nil,?_⟩,rfl,.inl ⟨rfl,rfl⟩,by simp [Loop.start]⟩
  intro a live
  simp [Loop.start,Links.read] at live

end

theorem sessions_kept (g : Setting) (users : List User) (events : List Event) :
    Meets stepOn Kept (.start g users) events ↔ Meets stepOn Allowed (.start g users) events :=
  meets_exact Good (fun _ event good => kept_iff good event) (fun _ _ _ good kept taken => step_good good kept taken)
    (start_good g users)

def faultOf (result : Except Fault Loop) : Option Fault :=
  match result with
  | .ok _ => none
  | .error fault => some fault

-- A peer that types a name nobody has.
def stranger : List Event :=
  [.poll,.accept 5,.serve,.read none,.write none,.poll,.serve,.read (some (.bytes "nobody\n".toList)),.line .quiet,.line .quiet]

def bare : Setting := ⟨none,none,none,none,none,fun _ => none,fun users _ => some users⟩

theorem wrong_name_astray : ¬∀ (g : Setting) (users : List User) (events : List Event),
    Meets stepOn (fun st event => step st event ≠ .error .astray) (.start g users) events := by
  intro claim
  have steps := claim bare [] (stranger ++ [.write none])
  have freed : (run stepOn (.start bare []) stranger).map (fun st => faultOf (step st (.write none))) = some (some .astray) := by
    decide +kernel
  obtain ⟨last,ran,read⟩ := Option.map_eq_some_iff.mp freed
  refine meets_last steps ran ?_
  cases result : step last (.write none) with
  | ok next => simp [result,faultOf] at read
  | error fault => simpa [result,faultOf] using read

end Trollbot.DccSessions
