import Trollbot.Foundation.Forest
import Trollbot.Foundation.Machine
import Trollbot.Util
import Mathlib.Data.List.Perm.Basic

namespace Trollbot.Timer
open Linked Machine

-- A timer without its links. Handlers are known by number, and so are networks.
structure TTimer where
  timeSet : Int
  timeTrig : Int
  command : Str
  handler : Option Nat
  net : Option Nat
deriving DecidableEq

-- The timers of one network, as its pointer reaches them.
structure Timers where
  heap : Heap TTimer
  timers : Option Nat

-- A handler that has been called, with the network it has been called with.
structure Fired where
  handler : Nat
  net : Option Nat
  timer : TTimer
deriving DecidableEq

def tTimerAdd (t : Timers) (add : TTimer) : Option Timers :=
  match t.timers with
  | none => some ⟨alloc t.heap ⟨add,none,none,none,none⟩,some t.heap.length⟩
  | some first => do
    let last ← walkEnd t.heap (fun _ => true) t.heap.length first
    let n ← cell t.heap last
    some ⟨store (alloc t.heap ⟨add,some last,none,none,none⟩) last { n with next := some t.heap.length },some first⟩

-- On to the record that is to be removed; a walk longer than the heap never ends.
def seek (h : Heap TTimer) (del : Nat) : Nat → Option Nat → Option Unit
  | 0,_ => none
  | _+1,none => none
  | fuel+1,some ret => do
    if ret = del then some () else do
    let n ← cell h ret
    seek h del fuel n.next

def linkPrev (h : Heap TTimer) (p prev : Option Nat) : Option (Heap TTimer) :=
  match p with
  | none => some h
  | some p => do
    let n ← cell h p
    some (store h p { n with prev := prev })

def linkNext (h : Heap TTimer) (p next : Option Nat) : Option (Heap TTimer) :=
  match p with
  | none => some h
  | some p => do
    let n ← cell h p
    some (store h p { n with next := next })

-- Only the first record is freed; another one is unlinked and returned.
def tTimerRemove (h : Heap TTimer) (timers : Option Nat) (del : Nat) : Option (Heap TTimer × Option Nat) := do
  seek h del (h.length + 1) timers
  let n ← cell h del
  if timers = some del then some (h.set del none,n.next) else do
  let h ← linkPrev h n.next n.prev
  let n ← cell h del
  let h ← linkNext h n.prev n.next
  some (h,some del)

structure CheckState where
  heap : Heap TTimer
  ret : Option Nat
  tmp : Option Nat
  fired : List Fired

def fire (n : TTimer) : List Fired := n.handler.toList.map (fun handler => ⟨handler,n.net,n⟩)

def checkStep (timestamp : Int) (st : CheckState) : Outcome CheckState (Timers × List Fired) :=
  match st.tmp with
  | none => .done (⟨st.heap,st.ret⟩,st.fired)
  | some p =>
    match cell st.heap p with
    | none => .fault
    | some n =>
      if n.label.timeTrig ≤ timestamp then
        match tTimerRemove st.heap st.ret p with
        | none => .fault
        | some (heap,ret) =>
          match cell heap p with
          | none => .fault
          | some later => .next ⟨heap,ret,later.next,st.fired ++ fire n.label⟩
      else .next ⟨st.heap,st.ret,n.next,st.fired⟩

def tTimersCheck (t : Timers) (timestamp : Int) (result : Timers × List Fired) : Prop :=
  Ends (checkStep timestamp) ⟨t.heap,t.timers,t.timers,[]⟩ result

-- The calls of egg_utimer and egg_timer with the time they read, and a check of a network's timers.
inductive Event where
  | utimer (net : Nat) (now later : Int) (seconds : Int) (command : Str) (handler : Option Nat)
  | timer (net : Nat) (now : Int) (minutes : Int) (command : Str) (handler : Option Nat)
  | check (net : Nat) (timestamp : Int)

def eggUtimer (net : Nat) (now later seconds : Int) (command : Str) (handler : Option Nat) : TTimer :=
  ⟨now,later + seconds,command,handler,some net⟩

-- The product is an int.
def eggTimer (now minutes : Int) (command : Str) (handler : Option Nat) : TTimer := ⟨now,now + (60 * minutes).bmod 4294967296,command,handler,none⟩

abbrev State := Nat → Timers

def start : State := fun _ => ⟨[],none⟩

def update {β : Type} (f : Nat → β) (net : Nat) (value : β) : Nat → β := fun other => if other = net then value else f other

inductive Takes : State → Event → State → List Fired → Prop where
  | utimer : tTimerAdd (st net) (eggUtimer net now later seconds command handler) = some after →
      Takes st (.utimer net now later seconds command handler) (update st net after) []
  | timer : tTimerAdd (st net) (eggTimer now minutes command handler) = some after →
      Takes st (.timer net now minutes command handler) (update st net after) []
  | check : tTimersCheck (st net) timestamp (after,fired) → Takes st (.check net timestamp) (update st net after) fired

-- What timers are for: they are pending in the order of their registration, until the first check that
-- reaches their time; there they fire once, with their own network.
def pendingAfter (pending : Nat → List TTimer) : Event → Nat → List TTimer
  | .utimer net now later seconds command handler => update pending net (pending net ++ [eggUtimer net now later seconds command handler])
  | .timer net now minutes command handler => update pending net (pending net ++ [eggTimer now minutes command handler])
  | .check net timestamp => update pending net ((pending net).filter (fun t => timestamp < t.timeTrig))

def due (pending : Nat → List TTimer) : Event → List Fired
  | .check net timestamp =>
    ((pending net).filter (fun t => t.timeTrig ≤ timestamp)).flatMap (fun t => t.handler.toList.map (fun handler => ⟨handler,some net,t⟩))
  | _ => []

def Lists (h : Heap TTimer) : Option Nat → List TTimer → Prop
  | none,[] => True
  | some p,t :: rest => ∃ n, cell h p = some n ∧ n.label = t ∧ Lists h n.next rest
  | _,_ => False

def FiresOnce : State → (Nat → List TTimer) → List Event → Prop
  | _,_,[] => True
  | st,pending,event :: rest => ∃ later fired, Takes st event later fired ∧ fired.Perm (due pending event) ∧
      (∀ net, Lists (later net).heap (later net).timers (pendingAfter pending event net)) ∧
      FiresOnce later (pendingAfter pending event) rest

-- No check reaches the time of a timer of its network.
def Unreached : (Nat → List TTimer) → List Event → Prop
  | _,[] => True
  | pending,event :: rest =>
    (∀ net timestamp, event = .check net timestamp → ∀ t ∈ pending net, timestamp < t.timeTrig) ∧
      Unreached (pendingAfter pending event) rest

def Holds (t : Timers) (pending : List TTimer) : Prop :=
  ∃ a : Placed TTimer, Rep t.heap none none none a ∧ Separate a ∧ head a = t.timers ∧ a.row.map Prod.snd = pending

theorem lists_rep {h : Heap TTimer} {a : Placed TTimer} (rep : Rep h prev parent none a) : Lists h (head a) (a.row.map Prod.snd) := by
  induction a generalizing prev parent with
  | nil => trivial
  | cons label children rest _ ih =>
      obtain ⟨p,label⟩ := label
      obtain ⟨here,-,after⟩ := rep
      refine ⟨_,here,rfl,?_⟩
      rw [Option.or_none]
      exact ih after

theorem Holds.lists (holds : Holds t pending) : Lists t.heap t.timers pending := by
  obtain ⟨a,rep,-,first,rfl⟩ := holds
  rw [← first]
  exact lists_rep rep

theorem tTimerAdd_holds (holds : Holds t pending) (add : TTimer) :
    ∃ after, tTimerAdd t add = some after ∧ Holds after (pending ++ [add]) := by
  obtain ⟨a,rep,separate,first,rfl⟩ := holds
  by_cases empty : a = .nil
  · subst empty
    refine ⟨⟨alloc t.heap ⟨add,none,none,none,none⟩,some t.heap.length⟩,by simp [tTimerAdd,← first],.one (t.heap.length,add) .nil,
      ⟨cell_alloc _ _,trivial,trivial⟩,by simp [Separate,Forest.one],rfl,rfl⟩
  · obtain ⟨x,q,label,children,rfl⟩ := last_split a empty
    obtain ⟨front,here,below,-⟩ := rep_append.mp rep
    obtain ⟨p,top⟩ : ∃ p, head (x.append (.one (q,label) children)) = some p := by cases x <;> exact ⟨_,rfl⟩
    have walks : walkEnd t.heap (fun _ => true) t.heap.length p = some q := by
      have member : p ∈ siblings (x.append (.one (q,label) children)) := by
        cases x <;> (cases top; simp [siblings,Forest.one,Forest.append,Forest.row])
      rw [walkEnd_level rep separate member (fun _ _ => rfl),lastOf_append]
      rfl
    have grown := rep_addSibling rep separate here add
    have fresh := replaces_fresh rep separate add
    refine ⟨⟨_,some p⟩,?_,_,grown,fresh.separate,fresh.head.trans top,?_⟩
    · rw [tTimerAdd,← first,top]
      simp only [walks,here,Option.bind_eq_bind,Option.bind_some]
      rfl
    · simp [Forest.one,Forest.row]

theorem check_quiet (holds : Holds t pending) (quiet : ∀ timer ∈ pending, timestamp < timer.timeTrig) :
    tTimersCheck t timestamp (t,[]) := by
  obtain ⟨a,rep,-,first,rfl⟩ := holds
  have walks : ∀ (a : Placed TTimer) (prev parent : Option Nat), Rep t.heap prev parent none a →
      (∀ timer ∈ a.row.map Prod.snd, timestamp < timer.timeTrig) →
      Ends (checkStep timestamp) ⟨t.heap,t.timers,head a,[]⟩ (t,[]) := by
    intro a
    induction a with
    | nil => exact fun _ _ _ _ => ends_now rfl
    | cons label children rest _ ih =>
        intro prev parent rep quiet
        obtain ⟨p,label⟩ := label
        obtain ⟨here,-,after⟩ := rep
        have pends : ¬label.timeTrig ≤ timestamp := by
          have := quiet label (by simp [Forest.row])
          omega
        have taken : checkStep timestamp ⟨t.heap,t.timers,some p,[]⟩ = .next ⟨t.heap,t.timers,head rest,[]⟩ := by
          simp [checkStep,here,pends]
        refine ends_later taken (ih (some p) none after fun timer member => quiet timer ?_)
        simp only [Forest.row,List.map_cons,List.mem_cons]
        exact .inr member
  have ends := walks a none none rep quiet
  rwa [first] at ends

theorem linkPrev_label (linked : linkPrev h q prev = some later) (live : cell h p = some n) :
    ∃ m, cell later p = some m ∧ m.label = n.label := by
  cases q with
  | none =>
      cases linked
      exact ⟨n,live,rfl⟩
  | some q =>
      obtain ⟨m,here,same⟩ := Option.bind_eq_some_iff.mp linked
      cases same
      by_cases other : p = q
      · subst other
        rw [live,Option.some.injEq] at here
        exact ⟨_,cell_store (cell_bound live) _,by rw [here]⟩
      · exact ⟨n,by rw [cell_store_other _ other,live],rfl⟩

theorem linkNext_label (linked : linkNext h q next = some later) (live : cell h p = some n) :
    ∃ m, cell later p = some m ∧ m.label = n.label := by
  cases q with
  | none =>
      cases linked
      exact ⟨n,live,rfl⟩
  | some q =>
      obtain ⟨m,here,same⟩ := Option.bind_eq_some_iff.mp linked
      cases same
      by_cases other : p = q
      · subst other
        rw [live,Option.some.injEq] at here
        exact ⟨_,cell_store (cell_bound live) _,by rw [here]⟩
      · exact ⟨n,by rw [cell_store_other _ other,live],rfl⟩

-- A removed timer is either freed or what is returned.
theorem remove_returns (removed : tTimerRemove h timers del = some (later,ret)) (live : cell h del = some n) :
    cell later del = none ∨ ret = some del ∧ ∃ m, cell later del = some m ∧ m.label = n.label := by
  unfold tTimerRemove at removed
  obtain ⟨_,-,removed⟩ := Option.bind_eq_some_iff.mp removed
  rw [live] at removed
  by_cases first : timers = some del
  · simp only [first,if_true,Option.bind_eq_bind,Option.bind_some,Option.some.injEq,Prod.mk.injEq] at removed
    obtain ⟨rfl,-⟩ := removed
    refine .inl ?_
    have old := cell_bound live
    simp [cell,old]
  · simp only [first,if_false,Option.bind_eq_bind,Option.bind_some] at removed
    obtain ⟨h1,linked,removed⟩ := Option.bind_eq_some_iff.mp removed
    obtain ⟨m,there,removed⟩ := Option.bind_eq_some_iff.mp removed
    obtain ⟨h2,linked',removed⟩ := Option.bind_eq_some_iff.mp removed
    obtain ⟨m1,here,same⟩ := linkPrev_label linked live
    obtain ⟨m2,here',same'⟩ := linkNext_label linked' here
    cases removed
    exact .inr ⟨rfl,m2,here',same'.trans same⟩

-- Once a check has met a timer that it fires, it ends with such a timer in front, if it ends.
def Stuck (timestamp : Int) (heap : Heap TTimer) (ret : Option Nat) : Prop :=
  ∃ p n, ret = some p ∧ cell heap p = some n ∧ n.label.timeTrig ≤ timestamp

theorem fires_stuck (live : cell st.heap p = some n) (tmp : st.tmp = some p) (fires : n.label.timeTrig ≤ timestamp)
    (taken : checkStep timestamp st = .next later) : Stuck timestamp later.heap later.ret := by
  simp only [checkStep,tmp,live,fires,if_true] at taken
  cases removed : tTimerRemove st.heap st.ret p with
  | none => simp [removed] at taken
  | some result =>
      obtain ⟨heap,ret⟩ := result
      simp only [removed] at taken
      cases there : cell heap p with
      | none => simp [there] at taken
      | some m =>
          simp only [there] at taken
          cases taken
          rcases remove_returns removed live with freed | ⟨rfl,m',here,same⟩
          · rw [freed] at there
            cases there
          · exact ⟨p,m',rfl,here,by rw [same]; exact fires⟩

theorem stuck_keeps (stuck : Stuck timestamp st.heap st.ret) (taken : checkStep timestamp st = .next later) :
    Stuck timestamp later.heap later.ret := by
  cases tmp : st.tmp with
  | none => simp [checkStep,tmp] at taken
  | some p =>
      cases live : cell st.heap p with
      | none => simp [checkStep,tmp,live] at taken
      | some n =>
          by_cases fires : n.label.timeTrig ≤ timestamp
          · exact fires_stuck live tmp fires taken
          · simp only [checkStep,tmp,live,fires,if_false] at taken
            cases taken
            exact stuck

-- The walk up to the first timer that is fired.
theorem reaches_due {a : Placed TTimer} (rep : Rep h prev parent none a) (reached : ∃ timer ∈ a.row.map Prod.snd, timer.timeTrig ≤ timestamp)
    (ret : Option Nat) (fired : List Fired) :
    ∃ p n, Reaches (checkStep timestamp) ⟨h,ret,head a,fired⟩ ⟨h,ret,some p,fired⟩ ∧ cell h p = some n ∧
      n.label.timeTrig ≤ timestamp := by
  induction a generalizing prev parent with
  | nil =>
      obtain ⟨timer,member,-⟩ := reached
      cases member
  | cons label children rest _ ih =>
      obtain ⟨p,label⟩ := label
      obtain ⟨here,-,after⟩ := rep
      by_cases fires : label.timeTrig ≤ timestamp
      · exact ⟨p,_,.refl,here,fires⟩
      · obtain ⟨timer,member,early⟩ := reached
        have later : timer ∈ rest.row.map Prod.snd := by
          simp only [Forest.row,List.map_cons,List.mem_cons] at member
          rcases member with rfl | inside
          · exact absurd early fires
          · exact inside
        obtain ⟨q,n,walked,there,due⟩ := ih after ⟨timer,later,early⟩
        refine ⟨q,n,.head ?_ walked,there,due⟩
        simp [checkStep,here,fires]

-- A check that reaches a timer runs into a freed record, or keeps a fired timer in front.
theorem check_reached (holds : Holds t pending) (reached : ∃ timer ∈ pending, timer.timeTrig ≤ timestamp)
    (check : tTimersCheck t timestamp (later,fired)) : Stuck timestamp later.heap later.timers := by
  obtain ⟨a,rep,-,first,rfl⟩ := holds
  obtain ⟨p,n,walked,live,fires⟩ := reaches_due rep reached t.timers []
  rw [first] at walked
  have ends := walked.ends_after check
  cases taken : checkStep timestamp ⟨t.heap,t.timers,some p,[]⟩ with
  | next st =>
      have stuck := fires_stuck live rfl fires taken
      refine ends_keeps (fun st => Stuck timestamp st.heap st.ret)
        (fun result => Stuck timestamp result.1.heap result.1.timers) (fun _ _ => stuck_keeps) ?_ stuck (ends_step taken ends)
      intro st result stuck done
      cases tmp : st.tmp with
      | none =>
          simp only [checkStep,tmp] at done
          cases done
          exact stuck
      | some q =>
          simp only [checkStep,tmp] at done
          split at done
          · cases done
          · split at done
            · split at done
              · cases done
              · split at done <;> cases done
            · cases done
  | done result =>
      simp only [checkStep,live,fires,if_true] at taken
      split at taken
      · cases taken
      · split at taken <;> cases taken
  | fault => exact absurd ends (fault_stays (n := 1) (by simp [runFor,taken]))

theorem stuck_front (stuck : Stuck timestamp h p) (pending : List TTimer) :
    ¬Lists h p (pending.filter (fun timer => timestamp < timer.timeTrig)) := by
  obtain ⟨p,n,rfl,live,fires⟩ := stuck
  intro lists
  cases front : pending.filter (fun timer => timestamp < timer.timeTrig) with
  | nil =>
      rw [front] at lists
      exact lists
  | cons timer rest =>
      rw [front] at lists
      obtain ⟨m,here,same,-⟩ := lists
      rw [live,Option.some.injEq] at here
      have member : timer ∈ pending.filter (fun timer => timestamp < timer.timeTrig) := by
        rw [front]
        exact List.mem_cons_self
      have early := of_decide_eq_true (List.mem_filter.mp member).2
      rw [← same,← here] at early
      omega

theorem takes_quiet (holds : ∀ net, Holds (st net) (pending net))
    (quiet : ∀ net timestamp, event = .check net timestamp → ∀ t ∈ pending net, timestamp < t.timeTrig) :
    ∃ later, Takes st event later [] ∧ due pending event = [] ∧ ∀ net, Holds (later net) (pendingAfter pending event net) := by
  have grows : ∀ (net : Nat) (after : Timers) (list : List TTimer), Holds after list →
      ∀ other, Holds (update st net after other) (update pending net list other) := by
    intro net after list new other
    unfold update
    by_cases same : other = net
    · simpa [same] using new
    · simpa [same] using holds other
  cases event with
  | utimer net now later seconds command handler =>
      obtain ⟨after,added,new⟩ := tTimerAdd_holds (holds net) (eggUtimer net now later seconds command handler)
      exact ⟨_,.utimer added,rfl,grows net after _ new⟩
  | timer net now minutes command handler =>
      obtain ⟨after,added,new⟩ := tTimerAdd_holds (holds net) (eggTimer now minutes command handler)
      exact ⟨_,.timer added,rfl,grows net after _ new⟩
  | check net timestamp =>
      have early := quiet net timestamp rfl
      have kept : (pending net).filter (fun t => timestamp < t.timeTrig) = pending net :=
        List.filter_eq_self.mpr (fun t member => by simpa using early t member)
      have none' : (pending net).filter (fun t => t.timeTrig ≤ timestamp) = [] := by
        refine List.filter_eq_nil_iff.mpr ?_
        intro t member
        have := early t member
        simpa using this
      refine ⟨_,.check (check_quiet (holds net) early),by simp [due,none'],?_⟩
      simpa only [pendingAfter,kept] using grows net (st net) (pending net) (holds net)

theorem takes_same (first : Takes st event a fired) (second : Takes st event b fired') : b = a := by
  cases first with
  | utimer added =>
      cases second with
      | utimer added' => rw [Option.some.inj (added'.symm.trans added)]
  | timer added =>
      cases second with
      | timer added' => rw [Option.some.inj (added'.symm.trans added)]
  | check ends =>
      cases second with
      | check ends' => rw [(Prod.mk.inj (ends_same ends ends')).1]

theorem fires_once_iff (holds : ∀ net, Holds (st net) (pending net)) (events : List Event) :
    FiresOnce st pending events ↔ Unreached pending events := by
  induction events generalizing st pending with
  | nil => exact Iff.rfl
  | cons event rest ih =>
      by_cases quiet : ∀ net timestamp, event = .check net timestamp → ∀ t ∈ pending net, timestamp < t.timeTrig
      · obtain ⟨later,taken,none',kept⟩ := takes_quiet holds quiet
        have after := ih kept
        constructor
        · rintro ⟨other,fired,taken',-,-,more⟩
          rw [takes_same taken taken'] at more
          exact ⟨quiet,after.mp more⟩
        · rintro ⟨-,more⟩
          exact ⟨later,[],taken,by rw [none'],fun net => (kept net).lists,after.mpr more⟩
      · constructor
        · rintro ⟨later,fired,taken,-,lists,-⟩
          refine absurd ?_ quiet
          rintro net timestamp rfl timer member
          by_contra reached
          cases taken with
          | check ends =>
              have stuck := check_reached (holds net) ⟨timer,member,by omega⟩ ends
              have front := lists net
              simp only [update,pendingAfter,if_true] at front
              exact stuck_front stuck _ front
        · rintro ⟨early,-⟩
          exact absurd early quiet

theorem timers_fire (events : List Event) : FiresOnce start (fun _ => []) events ↔ Unreached (fun _ => []) events :=
  fires_once_iff (fun _ => ⟨.nil,trivial,by simp [Separate],rfl,rfl⟩) events

-- A timer of one second, and a check two seconds later: its record is freed and then read.
theorem timer_freed : ¬FiresOnce start (fun _ => []) [.utimer 0 100 100 1 [] (some 0),.check 0 102] := by
  rintro ⟨first,fired,taken,-,-,second,fired',taken',-⟩
  have added : Takes start (.utimer 0 100 100 1 [] (some 0))
      (update start 0 ⟨[some ⟨⟨100,101,[],some 0,some 0⟩,none,none,none,none⟩],some 0⟩) [] := .utimer rfl
  obtain rfl := takes_same added taken
  cases taken' with
  | check ends => exact fault_stays (n := 1) rfl ends

end Trollbot.Timer
