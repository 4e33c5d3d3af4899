import Trollbot.Foundation.Machine
import Trollbot.Foundation.Paths
import Trollbot.Util

-- The filters of the log, and the check that gives an entry to their handlers.
namespace Trollbot.Log
open Machine Paths

-- A handler is named by its place among the program's functions.
structure LogFilter where
  flags : Option Str
  handler : Option Nat
  next : Option Nat
deriving DecidableEq

structure LogEntry where
  logText : Option Str
  flags : Option Str
deriving DecidableEq

structure Call where
  handler : Nat
  filter : Nat
  entry : LogEntry
deriving DecidableEq

-- At the while loop, in the for loop over the entry's flags, and behind it.
inductive Place where
  | outer
  | inner (i : Nat)
  | behind (i : Nat)
deriving DecidableEq

structure Check where
  place : Place
  tmp : Option Nat
  ran : List Call
deriving DecidableEq

section
variable (memory : List LogFilter) (entry : LogEntry)

def next (a : Nat) : Option (Option Nat) := memory[a]?.map (·.next)

-- tmp is dereferenced.
def atFilter (st : Check) (go : Nat → LogFilter → Outcome Check (List Call)) : Outcome Check (List Call) :=
  match st.tmp with
  | none => .fault
  | some a =>
    match memory[a]? with
    | none => .fault
    | some filter => go a filter

def callsOf (a : Nat) (filter : LogFilter) : List Call :=
  match filter.handler with
  | none => []
  | some handler => [⟨handler,a,entry⟩]

def outerStep (st : Check) : Outcome Check (List Call) :=
  match st.tmp with
  | none => .done st.ran
  | some _ => atFilter memory st fun _ filter =>
    match filter.flags,entry.flags with
    | some _,some _ => .next { st with place := .inner 0 }
    | _,_ => .next { st with tmp := filter.next }

-- A flag that the filter lacks moves tmp on, and the index stays at it.
def innerStep (st : Check) (i : Nat) : Outcome Check (List Call) :=
  match entry.flags with
  | none => .fault
  | some flags =>
    match flags[i]? with
    | none => .next { st with place := .behind i }
    | some c => atFilter memory st fun _ filter =>
      match filter.flags with
      | none => .fault
      | some own =>
        if c ∈ own then .next { st with place := .inner (i + 1) }
        else .next { st with place := .behind i,tmp := filter.next }

def behindStep (st : Check) (i : Nat) : Outcome Check (List Call) :=
  match entry.flags with
  | none => .fault
  | some flags =>
    match flags[i]? with
    | some _ => .next { st with place := .outer }
    | none => atFilter memory st fun a filter =>
      .next { place := .outer,tmp := filter.next,ran := st.ran ++ callsOf entry a filter }

def logFiltersCheck (st : Check) : Outcome Check (List Call) :=
  match st.place with
  | .outer => outerStep memory entry st
  | .inner i => innerStep memory entry st i
  | .behind i => behindStep memory entry st i

end

def Check.start (filters : Option Nat) : Check := ⟨.outer,filters,[]⟩

-- The filter's flags have every character of the entry's.
def Accepts (filter : LogFilter) (flags : Str) : Prop := ∃ own, filter.flags = some own ∧ ∀ c ∈ flags, c ∈ own

instance (filter : LogFilter) (flags : Str) : Decidable (Accepts filter flags) :=
  match h : filter.flags with
  | none => .isFalse (by simp [Accepts,h])
  | some own => decidable_of_iff (∀ c ∈ flags, c ∈ own) (by simp [Accepts,h])

section
variable {memory : List LogFilter} {entry : LogEntry}

-- The for loop from one flag on: through the others when the filter has them all, and else to the
-- first that it lacks, with tmp moved on.
theorem inner_accepts (pre : Str) (here : memory[a]? = some filter) (flagged : entry.flags = some (pre ++ post)) (own : filter.flags = some fs)
    (has : ∀ c ∈ post, c ∈ fs) :
    Reaches (logFiltersCheck memory entry) ⟨.inner pre.length,some a,ran⟩ ⟨.behind (pre ++ post).length,some a,ran⟩ := by
  induction post generalizing pre with
  | nil =>
      apply Reaches.one
      simp [logFiltersCheck,innerStep,flagged]
  | cons c rest ih =>
      have onward := ih (pre ++ [c]) (by simpa using flagged) (fun d member => has d (by simp [member]))
      refine .head ?_ (by simpa using onward)
      simp [logFiltersCheck,innerStep,atFilter,flagged,here,own,has c]

theorem inner_rejects (pre : Str) (ran : List Call) (here : memory[a]? = some filter) (flagged : entry.flags = some (pre ++ post)) (own : filter.flags = some fs)
    (lacks : ¬∀ c ∈ post, c ∈ fs) :
    ∃ i, i < (pre ++ post).length ∧
      Reaches (logFiltersCheck memory entry) ⟨.inner pre.length,some a,ran⟩ ⟨.behind i,filter.next,ran⟩ := by
  induction post generalizing pre with
  | nil => exact absurd (by simp) lacks
  | cons c rest ih =>
      by_cases has : c ∈ fs
      · have others : ¬∀ d ∈ rest, d ∈ fs := fun all => lacks (by simpa [has] using all)
        obtain ⟨i,inside,onward⟩ := ih (pre ++ [c]) (by simpa using flagged) others
        refine ⟨i,by simpa using inside,.head ?_ (by simpa using onward)⟩
        simp [logFiltersCheck,innerStep,atFilter,flagged,here,own,has]
      · refine ⟨pre.length,by simp,.one ?_⟩
        simp [logFiltersCheck,innerStep,atFilter,flagged,here,own,has]

def filterCalls (memory : List LogFilter) (entry : LogEntry) (flags : Str) (a : Nat) : List Call :=
  match memory[a]? with
  | none => []
  | some filter => if Accepts filter flags then callsOf entry a filter else []

theorem filter_checked (here : memory[a]? = some filter) (flagged : entry.flags = some flags) :
    Reaches (logFiltersCheck memory entry) ⟨.outer,some a,ran⟩ ⟨.outer,filter.next,ran ++ filterCalls memory entry flags a⟩ := by
  cases own : filter.flags with
  | none =>
      apply Reaches.one
      simp [logFiltersCheck,outerStep,atFilter,here,own,filterCalls,Accepts]
  | some fs =>
      have entered : logFiltersCheck memory entry ⟨.outer,some a,ran⟩ = .next ⟨.inner 0,some a,ran⟩ := by
        simp [logFiltersCheck,outerStep,atFilter,here,own,flagged]
      apply Reaches.head entered
      by_cases has : ∀ c ∈ flags, c ∈ fs
      · have accepted : Accepts filter flags := ⟨fs,own,has⟩
        apply (inner_accepts [] here flagged own has).trans
        apply Reaches.one
        simp [logFiltersCheck,behindStep,atFilter,flagged,here,filterCalls,accepted]
      · have rejected : ¬Accepts filter flags := by
          rintro ⟨other,same,all⟩
          rw [own] at same
          cases same
          exact has all
        obtain ⟨i,inside,through⟩ := inner_rejects [] ran here flagged own has
        apply through.trans
        apply Reaches.one
        simp at inside
        simp [logFiltersCheck,behindStep,flagged,here,filterCalls,rejected,inside]

theorem check_ends (ran : List Call) (path : Path (next memory) filters l) (flagged : entry.flags = some flags) :
    Ends (logFiltersCheck memory entry) ⟨.outer,filters,ran⟩ (ran ++ l.flatMap (filterCalls memory entry flags)) := by
  induction l generalizing filters ran with
  | nil =>
      rw [path_nil] at path
      apply ends_now
      simp [logFiltersCheck,outerStep,path]
  | cons a rest ih =>
      obtain ⟨rfl,onward,leads,more⟩ := path
      obtain ⟨filter,here,rfl⟩ := Option.map_eq_some_iff.mp leads
      refine (filter_checked here flagged).ends ?_
      simpa using ih (ran ++ filterCalls memory entry flags a) more

theorem mem_calls : call ∈ filterCalls memory entry flags a ↔
    ∃ filter, memory[a]? = some filter ∧ Accepts filter flags ∧ filter.handler = some call.handler ∧ call.filter = a ∧ call.entry = entry := by
  unfold filterCalls
  cases here : memory[a]? with
  | none => simp
  | some filter =>
      cases call with
      | mk handler place sent =>
          by_cases accepted : Accepts filter flags
          · cases handled : filter.handler with
            | none => simp [accepted,callsOf,handled]
            | some own =>
                simp only [if_pos accepted,callsOf,handled,List.mem_singleton,Call.mk.injEq]
                constructor
                · rintro ⟨rfl,rfl,rfl⟩
                  exact ⟨filter,rfl,accepted,handled,rfl,rfl⟩
                · rintro ⟨other,same,-,named,rfl,rfl⟩
                  cases same
                  rw [handled] at named
                  cases named
                  exact ⟨rfl,rfl,rfl⟩
          · simp only [if_neg accepted,List.not_mem_nil,false_iff]
            rintro ⟨other,same,accepts,-⟩
            cases same
            exact accepted accepts

theorem calls_at (memory : List LogFilter) (entry : LogEntry) (flags : Str) (a : Nat) :
    ((filterCalls memory entry flags a).map (·.filter)).Sublist [a] := by
  unfold filterCalls
  cases memory[a]? with
  | none => simp
  | some filter =>
      by_cases accepted : Accepts filter flags
      · cases handled : filter.handler <;> simp [accepted,callsOf,handled]
      · simp [accepted]

theorem calls_ordered (memory : List LogFilter) (entry : LogEntry) (flags : Str) (l : List Nat) :
    ((l.flatMap (filterCalls memory entry flags)).map (·.filter)).Sublist l := by
  induction l with
  | nil => simp
  | cons a rest ih =>
      rw [List.flatMap_cons,List.map_append]
      exact (calls_at memory entry flags a).append ih

-- The check ends. Each filter of the list that accepts the entry and has a handler is called once,
-- in the list's order, and no other is.
theorem entry_reaches_filters (path : Path (next memory) filters l) (flagged : entry.flags = some flags) :
    ∃ ran, Ends (logFiltersCheck memory entry) (.start filters) ran ∧
      (ran.map (·.filter)).Sublist l ∧ (ran.map (·.filter)).Nodup ∧
      ∀ call, call ∈ ran ↔ call.filter ∈ l ∧ call.entry = entry ∧
        ∃ filter, memory[call.filter]? = some filter ∧ Accepts filter flags ∧ filter.handler = some call.handler := by
  have ordered := calls_ordered memory entry flags l
  refine ⟨l.flatMap (filterCalls memory entry flags),check_ends [] path flagged,ordered,ordered.nodup (path_nodup path),?_⟩
  intro call
  rw [List.mem_flatMap]
  constructor
  · rintro ⟨a,member,called⟩
    obtain ⟨filter,here,accepted,handled,rfl,sent⟩ := mem_calls.mp called
    exact ⟨member,sent,filter,here,accepted,handled⟩
  · rintro ⟨member,sent,filter,here,accepted,handled⟩
    exact ⟨call.filter,member,mem_calls.mpr ⟨filter,here,accepted,handled,rfl,sent⟩⟩

end

-- The first lacks a flag, the second has no flags and the third accepts.
def threeFilters : List LogFilter := [⟨some ['e'],some 0,some 1⟩,⟨none,some 1,some 2⟩,⟨some ['d','w','e'],some 2,none⟩]

theorem third_filter_called : ∃ ran, Ends (logFiltersCheck threeFilters ⟨none,some ['e','d']⟩) (.start (some 0)) ran ∧
    (ran.map (·.filter)).Sublist [0,1,2] ∧ (ran.map (·.filter)).Nodup ∧
    ∀ call, call ∈ ran ↔ call.filter ∈ [0,1,2] ∧ call.entry = ⟨none,some ['e','d']⟩ ∧
      ∃ filter, threeFilters[call.filter]? = some filter ∧ Accepts filter ['e','d'] ∧ filter.handler = some call.handler :=
  entry_reaches_filters ⟨rfl,some 1,rfl,rfl,some 2,rfl,rfl,none,rfl,rfl⟩ rfl

end Trollbot.Log
