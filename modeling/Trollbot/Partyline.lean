import Trollbot.ListDel
import Trollbot.Privileges
import Trollbot.PutText
import Trollbot.Tracking

-- What is said on the partyline and what is logged, and who reads it.
namespace Trollbot.Partyline
open DccLogin Privileges Runs
open DccSessions (value)
open PutText (vsnprintf printf)

-- A session of the network with the socket it is read from.
structure Chat where
  sock : Nat
  dcc : DccSession
deriving DecidableEq

-- What goes out, and to which socket.
inductive Sent where
  | reply (sock : Nat) (line : Str)
  | said (sock : Nat) (line : Str)
  | logged (sock : Nat) (line : Str)
deriving DecidableEq

def ircPrintf (fmt : Str) (args : List Str) : Option Str := do
  let buf ← vsnprintf 2048 fmt args
  vsnprintf 2059 ['%','s','\n'] [buf]

def dccPartylineHandler (dccs : List Chat) (username message : Str) : Option (List Sent) :=
  dccs.mapM (fun tmp => (ircPrintf "<%s> %s".toList [username,message]).map (.said tmp.sock))

-- `buf` is the time. A session without a user ends the walk.
def dccLogFilterHandler (users : List User) (buf logText : Str) : List Chat → Option (List Sent)
  | [] => some []
  | dtmp :: rest =>
    if value .notReady ≤ value dtmp.dcc.status then
      match dtmp.dcc.user with
      | none => some []
      | some place => do
        let user ← users[place]?
        if ← eggMatchattr users user.username ['n'] then do
          let line ← ircPrintf "%s %s\n".toList [buf,logText]
          let more ← dccLogFilterHandler users buf logText rest
          some (.logged dtmp.sock line :: more)
        else dccLogFilterHandler users buf logText rest
    else dccLogFilterHandler users buf logText rest

-- The sessions are reached from net->dccs, which need not be the first of them.
structure Room (η : Type) where
  users : List User
  trigs : TrigTable η
  dccs : Chain Chat

-- What happens around the sessions of one network. What commands, scripts and the server do to the users and the triggers is
-- `changed`; `socket` is what irc_loop does to a session's status.
inductive Event (η : Type) where
  | opened (sock : Nat)
  | socket (place : Nat) (event : DccLogin.Event)
  | line (place : Nat) (buffer : Str)
  | logged (buf logText : Str)
  | changed (users : List User) (trigs : TrigTable η)

section
variable {η : Type}

-- Those that are reached, and all.
def Room.sockets (room : Room η) : List Nat := room.dccs.items.map (·.sock)
def Room.connected (room : Room η) : List Nat := room.dccs.inOrder.map (·.sock)

-- The session goes on, or dcc_list_del takes it out of the list.
def Room.left (room : Room η) (users : List User) (place sock : Nat) (session : Option DccSession) : Room η :=
  match session with
  | none => { room with users := users, dccs := room.dccs.del place }
  | some dcc => { room with users := users, dccs := room.dccs.modify place (fun _ => ⟨sock,dcc⟩) }

def newDccConnection (room : Room η) (sock : Nat) : Option (Room η × List Sent) := do
  let first ← ircPrintf "Welcome to Trollbot".toList []
  let second ← ircPrintf "enter your username to continue.".toList []
  some ({ room with dccs := room.dccs.add ⟨sock,⟨none,.notReady⟩⟩ },[.reply sock first,.reply sock second])

-- The handler of a command that is run is not followed.
def dccLine (room : Room η) (place : Nat) (buffer : Str) : Option (Room η × List Sent) := do
  let user ← room.users[place]?
  match ← DccCommand.dispatch ⟨room.users,room.trigs,[]⟩ place buffer with
  | .handled chosen _ => some ({ room with trigs := DccCommand.countUse room.trigs chosen },[])
  | .partyline _ => (dccPartylineHandler room.dccs.items user.username buffer).map (fun out => (room,out))

def parseLine (g : Setting) (room : Room η) (place : Nat) (buffer : Str) : Option (Room η × List Sent) := do
  let chat ← room.dccs.items[place]?
  if chat.dcc.status = .authenticated then do
    let user ← chat.dcc.user
    dccLine room user buffer
  else do
    let (next,replies) ← parseDccLine g ⟨room.users,some chat.dcc⟩ buffer
    some (room.left next.users place chat.sock next.session,replies.map (.reply chat.sock))

def happen (g : Setting) (room : Room η) : Event η → Option (Room η × List Sent)
  | .opened sock => newDccConnection room sock
  | .socket place event => do
    let chat ← room.dccs.items[place]?
    some (room.left room.users place chat.sock (socketStep event chat.dcc),[])
  | .line place buffer => parseLine g room place buffer
  | .logged buf logText => (dccLogFilterHandler room.users buf logText room.dccs.items).map (fun out => (room,out))
  | .changed users trigs => some ({ room with users := users, trigs := trigs },[])

def converse (g : Setting) : List (Event η) → Room η → Option (Room η × List Sent)
  | [],room => some (room,[])
  | event :: rest,room => do
    let (next,out) ← happen g room event
    let (last,more) ← converse g rest next
    some (last,out ++ more)

-- What a socket is sent of the partyline.
def heard (sock : Nat) (out : List Sent) : List Str :=
  out.filterMap (fun
    | .said dest line => if dest = sock then some line else none
    | _ => none)

-- The line that an event puts on the partyline.
def utters (room : Room η) : Event η → Option Str
  | .line place buffer => do
    let chat ← room.dccs.items[place]?
    if chat.dcc.status = .authenticated then do
      let at' ← chat.dcc.user
      match ← DccCommand.dispatch ⟨room.users,room.trigs,[]⟩ at' buffer with
      | .handled _ _ => none
      | .partyline text => some (text.take 2047 ++ ['\n'])
    else none
  | _ => none

-- What is said while the socket's session is reached.
def conversation (g : Setting) (sock : Nat) : List (Event η) → Room η → List Str
  | [],_ => []
  | event :: rest,room =>
    (if sock ∈ room.sockets then (utters room event).toList else []) ++
      ((happen g room event).map (fun next => conversation g sock rest next.1)).getD []

-- Along the run a new connection has a socket that is not in use.
def Fresh (g : Setting) : List (Event η) → Room η → Prop
  | [],_ => True
  | event :: rest,room => (∀ sock, event = .opened sock → sock ∉ room.connected) ∧
      ∀ next out, happen g room event = some (next,out) → Fresh g rest next

end

-- A line that is formatted, cut to the buffer, and its newline.
theorem printed_line (made : printf fmt args = some text) : ircPrintf fmt args = some (text.take 2047 ++ ['\n']) := by
  have line : PutText.tsocketPrintf none fmt args = (ircPrintf fmt args).map (fun text => (none,text)) := by
    unfold PutText.tsocketPrintf ircPrintf
    cases vsnprintf 2048 fmt args <;> rfl
  rw [PutText.tsocketPrintf_eq,made] at line
  obtain ⟨text',printed,same⟩ := Option.map_eq_some_iff.mp line.symm
  rw [printed]
  exact congrArg some (Prod.mk.inj same).2

theorem partyline_line (username message : Str) :
    ircPrintf "<%s> %s".toList [username,message] = some (('<' :: username ++ "> ".toList ++ message).take 2047 ++ ['\n']) := by
  refine printed_line ?_
  simp [printf]

theorem log_line (buf logText : Str) : ircPrintf "%s %s\n".toList [buf,logText] = some ((buf ++ ' ' :: logText ++ ['\n']).take 2047 ++ ['\n']) := by
  refine printed_line ?_
  simp [printf]

section
variable {η : Type}

theorem heard_append (sock : Nat) (first second : List Sent) : heard sock (first ++ second) = heard sock first ++ heard sock second :=
  List.filterMap_append

theorem handler_tells (dccs : List Chat) (username message : Str) : dccPartylineHandler dccs username message =
    some (dccs.map (fun tmp => .said tmp.sock (('<' :: username ++ "> ".toList ++ message).take 2047 ++ ['\n']))) := by
  unfold dccPartylineHandler
  rw [partyline_line]
  exact Irc.mapM_total (fun _ _ => rfl)

theorem said_once {dccs : List Chat} (distinct : (dccs.map (·.sock)).Nodup) (there : sock ∈ dccs.map (·.sock)) (line : Str) :
    heard sock (dccs.map (fun tmp => .said tmp.sock line)) = [line] := by
  induction dccs with
  | nil => cases there
  | cons first rest ih =>
      obtain ⟨apart,distinct⟩ := List.nodup_cons.mp distinct
      rw [List.map_cons,← List.singleton_append,heard_append]
      rcases List.mem_cons.mp there with rfl | behind
      · have nobody : heard first.sock (rest.map (fun tmp => .said tmp.sock line)) = [] := by
          unfold heard
          rw [List.filterMap_eq_nil_iff]
          intro sent member
          obtain ⟨tmp,inside,rfl⟩ := List.mem_map.mp member
          have differ : tmp.sock ≠ first.sock := fun same => apart (List.mem_map.mpr ⟨tmp,inside,same⟩)
          simp [differ]
        rw [nobody]
        simp [heard]
      · have differ : first.sock ≠ sock := by
          rintro rfl
          exact apart behind
        rw [ih distinct behind]
        simp [heard,differ]

theorem replies_unheard (sock dest : Nat) (replies : List Str) : heard sock (replies.map (.reply dest)) = [] := by
  unfold heard
  rw [List.filterMap_eq_nil_iff]
  intro sent member
  obtain ⟨reply,-,rfl⟩ := List.mem_map.mp member
  rfl

theorem logs_unheard (sock : Nat) (done : dccLogFilterHandler users buf logText dccs = some out) : heard sock out = [] := by
  induction dccs generalizing out with
  | nil =>
      cases done
      rfl
  | cons dtmp rest ih =>
      unfold dccLogFilterHandler at done
      split at done
      · split at done
        · cases done
          rfl
        · obtain ⟨user,-,done⟩ := Option.bind_eq_some_iff.mp done
          obtain ⟨owner,-,done⟩ := Option.bind_eq_some_iff.mp done
          split at done
          · obtain ⟨line,-,done⟩ := Option.bind_eq_some_iff.mp done
            obtain ⟨more,others,done⟩ := Option.bind_eq_some_iff.mp done
            cases done
            have quiet := ih others
            exact quiet
          · exact ih done
      · exact ih done

theorem said_nobody {dccs : List Chat} (away : sock ∉ dccs.map (·.sock)) (line : Str) :
    heard sock (dccs.map (fun tmp => .said tmp.sock line)) = [] := by
  unfold heard
  rw [List.filterMap_eq_nil_iff]
  intro sent member
  obtain ⟨tmp,inside,rfl⟩ := List.mem_map.mp member
  have differ : tmp.sock ≠ sock := fun same => away (List.mem_map.mpr ⟨tmp,inside,same⟩)
  simp [differ]

theorem sockets_distinct {room : Room η} (distinct : room.connected.Nodup) : room.sockets.Nodup := by
  rw [Room.connected,Chain.inOrder,List.map_append] at distinct
  exact distinct.of_append_right

theorem left_distinct {room : Room η} {chat : Chat} (distinct : room.connected.Nodup) (here : room.dccs.items[place]? = some chat) (users : List User)
    (session : Option DccSession) : (room.left users place chat.sock session).connected.Nodup := by
  cases session with
  | none =>
      have fewer := Chain.del_inOrder_sublist (List.getElem?_eq_some_iff.mp here).1
      exact List.Nodup.sublist (List.Sublist.map (fun chat : Chat => chat.sock) fewer) distinct
  | some dcc =>
      have same : (room.dccs.items.modify place (fun _ => ⟨chat.sock,dcc⟩)).map (·.sock) = room.dccs.items.map (·.sock) := by
        refine List.ext_getElem? ?_
        intro i
        rw [List.getElem?_map,List.getElem?_map,List.getElem?_modify]
        split
        · rename_i own
          subst own
          simp [here]
        · simp
      rw [Room.connected,Chain.inOrder,List.map_append] at distinct ⊢
      change ((room.dccs.behind.reverse.map (·.sock)) ++ (room.dccs.items.modify place (fun _ => ⟨chat.sock,dcc⟩)).map (·.sock)).Nodup
      rw [same]
      exact distinct

-- On the linked records it is dcc_list_del that makes the list of those who stay.
theorem left_linked {room : Room η} {h : Links.Heap DccSessions.DccSession} {c : Chain Nat} {chat : Nat → Chat} (held : ListDel.Held h c)
    (shows : room.dccs = c.map chat) (here : c.items[place]? = some del) (users : List User) (sock : Nat) :
    ∃ rest, DccSessions.dccListDel h c.items.head? del = .ok (rest,(c.del place).items.head?) ∧ ListDel.Held rest (c.del place) ∧
      (room.left users place sock none).dccs = (c.del place).map chat := by
  obtain ⟨rest,deleted,others⟩ := ListDel.dccListDel_chain held here
  exact ⟨rest,deleted,others,by rw [Room.left,shows,Chain.del_map]⟩

theorem command_said {trigs : List (Trigger η)} (done : DccCommand.dccCommandHandler users user buffer place trigs = some (.partyline text)) :
    text = '<' :: user.username ++ "> ".toList ++ buffer := by
  induction trigs generalizing place with
  | nil =>
      cases done
      rfl
  | cons trig rest ih =>
      obtain ⟨allowed,-,done⟩ := Option.bind_eq_some_iff.mp done
      split at done
      · cases done
      · exact ih done

theorem partyline_said {st : DccCommand.Access η} (here : st.users[place]? = some user)
    (done : DccCommand.dispatch st place buffer = some (.partyline text)) : text = '<' :: user.username ++ "> ".toList ++ buffer := by
  obtain ⟨other,there,done⟩ := Option.bind_eq_some_iff.mp done
  obtain rfl := Option.some.inj (here.symm.trans there)
  exact command_said done

-- What one event does to the sockets and what it has them hear.
theorem happen_heard {room : Room η} (distinct : room.connected.Nodup) (fresh : ∀ sock, event = .opened sock → sock ∉ room.connected)
    (done : happen g room event = some (next,out)) :
    next.connected.Nodup ∧ ∀ sock, heard sock out = if sock ∈ room.sockets then (utters room event).toList else [] := by
  cases event with
  | opened sock =>
      simp only [happen,newDccConnection,Option.bind_eq_bind] at done
      obtain ⟨first,-,done⟩ := Option.bind_eq_some_iff.mp done
      obtain ⟨second,-,done⟩ := Option.bind_eq_some_iff.mp done
      cases done
      refine ⟨?_,fun _ => by simp [heard,utters]⟩
      have unused := fresh sock rfl
      have joined : ((room.dccs.add ⟨sock,⟨none,.notReady⟩⟩).inOrder.map (·.sock)).Sublist (room.connected ++ [sock]) := by
        cases items : room.dccs.items with
        | nil => simp [Chain.add,Chain.inOrder,Room.connected,items]
        | cons first rest => simp [Chain.add,Chain.inOrder,Room.connected,items]
      refine List.Nodup.sublist joined (List.nodup_append.mpr ⟨distinct,by simp,?_⟩)
      intro old member new here
      rw [List.mem_singleton.mp here]
      rintro rfl
      exact unused member
  | socket place event =>
      obtain ⟨chat,here,done⟩ := Option.bind_eq_some_iff.mp done
      cases done
      exact ⟨left_distinct distinct here _ _,fun _ => by simp [heard,utters]⟩
  | logged buf logText =>
      obtain ⟨lines,ran,same⟩ := Option.map_eq_some_iff.mp done
      cases same
      exact ⟨distinct,fun sock => by simp [logs_unheard sock ran,utters]⟩
  | changed users trigs =>
      cases done
      exact ⟨distinct,fun _ => by simp [heard,utters]⟩
  | line place buffer =>
      obtain ⟨chat,here,done⟩ := Option.bind_eq_some_iff.mp done
      by_cases authenticated : chat.dcc.status = .authenticated
      · rw [if_pos authenticated] at done
        obtain ⟨at',known,done⟩ := Option.bind_eq_some_iff.mp done
        obtain ⟨user,there,done⟩ := Option.bind_eq_some_iff.mp done
        obtain ⟨ran,dispatched,done⟩ := Option.bind_eq_some_iff.mp done
        cases ran with
        | handled chosen trig =>
            cases done
            refine ⟨distinct,fun sock => ?_⟩
            simp [utters,here,authenticated,known,dispatched,heard]
        | partyline text =>
            obtain ⟨lines,said,same⟩ := Option.map_eq_some_iff.mp done
            cases same
            refine ⟨distinct,fun sock => ?_⟩
            rw [handler_tells] at said
            have spoken : text = '<' :: user.username ++ "> ".toList ++ buffer := partyline_said there dispatched
            have utterance : (utters next (.line place buffer)).toList = [text.take 2047 ++ ['\n']] := by
              simp [utters,here,authenticated,known,dispatched]
            rw [← Option.some.inj said,utterance,← spoken]
            by_cases reached : sock ∈ next.sockets
            · rw [if_pos reached]
              exact said_once (sockets_distinct distinct) reached _
            · rw [if_neg reached]
              exact said_nobody reached _
      · rw [if_neg authenticated] at done
        obtain ⟨⟨login,replies⟩,-,done⟩ := Option.bind_eq_some_iff.mp done
        cases done
        refine ⟨left_distinct distinct here _ _,fun sock => ?_⟩
        rw [replies_unheard]
        simp [utters,here,authenticated]

end

-- The sessions that a log line gets to: ready, in front of the first ready one without a user, and of a user with the flag n.
def readers (users : List User) (dccs : List Chat) : List Chat :=
  ((dccs.filter (fun dtmp => value .notReady ≤ value dtmp.dcc.status)).takeWhile (fun dtmp => dtmp.dcc.user.isSome)).filter (fun dtmp =>
    (dtmp.dcc.user.bind (fun place => users[place]?)).any (fun user => user.flags.any (fun own => decide ('n' ∈ own))))

theorem log_readers (distinct : Distinct users) (done : dccLogFilterHandler users buf logText dccs = some out) :
    out = (readers users dccs).map (fun dtmp => .logged dtmp.sock ((buf ++ ' ' :: logText ++ ['\n']).take 2047 ++ ['\n'])) := by
  induction dccs generalizing out with
  | nil =>
      cases done
      rfl
  | cons dtmp rest ih =>
      unfold dccLogFilterHandler at done
      split at done
      · rename_i isReady
        split at done
        · rename_i nobody
          cases done
          simp [readers,isReady,nobody]
        · rename_i place known
          obtain ⟨user,here,done⟩ := Option.bind_eq_some_iff.mp done
          obtain ⟨owner,asked,done⟩ := Option.bind_eq_some_iff.mp done
          rw [own_answer distinct (List.mem_of_getElem? here),Option.some.injEq] at asked
          simp only [List.all_cons,List.all_nil,Bool.and_true,List.contains_eq_mem] at asked
          cases owner with
          | true =>
              simp only [if_true,log_line,Option.bind_eq_bind,Option.bind_some] at done
              obtain ⟨more,others,same⟩ := Option.bind_eq_some_iff.mp done
              cases same
              have behind := ih others
              simp only [readers] at behind ⊢
              simp [isReady,known,here,asked,behind]
          | false =>
              have behind := ih done
              simp only [readers] at behind ⊢
              simp [isReady,known,here,asked,behind]
      · rename_i unready
        have behind := ih done
        simp only [readers] at behind ⊢
        simp [unready,behind]

-- Two on the partyline, and a third who hangs up before the second one speaks; the first is not reached then.
def quiet : Setting := ⟨none,none,none,none,none,fun _ => none,fun users _ => some users⟩

def two : Chain Chat := ⟨[],[⟨5,⟨some 0,.authenticated⟩⟩,⟨6,⟨some 1,.authenticated⟩⟩]⟩

def three : Room Nat := ⟨[annAgain,bob],fun _ => .empty,two⟩

def talk : List (Event Nat) := [.opened 7,.line 0 "hi".toList,.logged "[12:00]".toList "x".toList,.socket 2 .hangup,.line 0 "oh".toList]

end Trollbot.Partyline
