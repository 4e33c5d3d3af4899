import Trollbot.DccLookup

-- The text that scripts send, through the formatter, to the server and to sessions.
namespace Trollbot.PutText
open DccSessions

-- printf with strings for its arguments. None is a directive whose argument is not there.
def printf : Str → List Str → Option Str
  | [],_ => some []
  | '%' :: '%' :: rest,args => (printf rest args).map ('%' :: ·)
  | '%' :: 's' :: rest,arg :: args => (printf rest args).map (arg ++ ·)
  | '%' :: _,_ => none
  | c :: rest,args => (printf rest args).map (c :: ·)

-- The text in a buffer of `size` bytes.
def vsnprintf (size : Nat) (fmt : Str) (args : List Str) : Option Str := (printf fmt args).map (·.take (size - 1))

def tsocketPrintf (tsock : Option Nat) (fmt : Str) (args : List Str) : Option (Option Nat × Str) := do
  let buf ← vsnprintf 2048 fmt args
  let buf2 ← vsnprintf 2059 ['%','s','\n'] [buf]
  some (tsock,buf2)

def eggPutserv (tsock : Option Nat) (text : Str) (_optionNext : Int) : Option (Option Nat × Str) := tsocketPrintf tsock text []
def eggPuthelp (tsock : Option Nat) (text : Str) (_optionNext : Int) : Option (Option Nat × Str) := tsocketPrintf tsock text []
def eggPutquick (tsock : Option Nat) (text : Str) (_optionNext : Int) : Option (Option Nat × Str) := tsocketPrintf tsock text []

def jsPutserv (tsock : Option Nat) (text : Str) : Option (Option Nat × Str) := tsocketPrintf tsock ['%','s'] [text]

def eggDccbroadcast (message : Str) : List DccSession → Option (List (Option Nat × Str))
  | [] => some []
  | dtmp :: rest =>
    if ready dtmp then do
      let line ← ircPrintf dtmp.sock message
      let more ← eggDccbroadcast message rest
      some (line :: more)
    else eggDccbroadcast message rest

-- Every way to send a text sends its bytes and a newline.
structure AsIs (tsock : Option Nat) (dccs : List DccSession) (text : Str) : Prop where
  script : jsPutserv tsock text = some (tsock,text ++ ['\n'])
  serv : ∀ option, eggPutserv tsock text option = jsPutserv tsock text
  help : ∀ option, eggPuthelp tsock text option = jsPutserv tsock text
  quick : ∀ option, eggPutquick tsock text option = jsPutserv tsock text
  dcc : ∀ idx dcc, dccs.find? (fun dtmp => dtmp.id = idx) = some dcc → eggPutdcc dccs idx text = some [(dcc.sock,text ++ ['\n'])]
  broadcast : eggDccbroadcast text dccs = some ((dccs.filter ready).map (fun dcc => (dcc.sock,text ++ ['\n'])))

theorem printf_formatted (fmt : Str) : printf fmt [] = formatted fmt := by
  induction fmt using formatted.induct with
  | case1 => rfl
  | case2 rest ih => rw [printf,formatted,ih]
  | case3 rest other => rw [printf,formatted] <;> simp_all
  | case4 c rest one two ih => rw [printf,formatted,ih] <;> simp_all

theorem formatted_shorter (made : formatted fmt = some text) : text.length ≤ fmt.length := by
  induction fmt using formatted.induct generalizing text with
  | case1 =>
      cases made
      exact Nat.le_refl _
  | case2 rest ih =>
      rw [formatted] at made
      obtain ⟨inner,printed,rfl⟩ := Option.map_eq_some_iff.mp made
      have := ih printed
      simp only [List.length_cons]
      omega
  | case3 rest other =>
      rw [formatted] at made
      · cases made
      · exact other
  | case4 c rest one two ih =>
      rw [formatted] at made
      · obtain ⟨inner,printed,rfl⟩ := Option.map_eq_some_iff.mp made
        have := ih printed
        simp only [List.length_cons]
        omega
      · exact one
      · exact two

-- A text comes out of the formatter as it went in when there is no directive in it.
theorem formatted_iff : formatted text = some text ↔ '%' ∉ text := by
  induction text using formatted.induct with
  | case1 => simp [formatted]
  | case2 rest ih =>
      refine iff_of_false ?_ (by simp)
      intro same
      rw [formatted] at same
      obtain ⟨inner,printed,longer⟩ := Option.map_eq_some_iff.mp same
      have short := formatted_shorter printed
      have long := congrArg List.length longer
      simp only [List.length_cons] at long
      omega
  | case3 rest other =>
      refine iff_of_false ?_ (by simp)
      intro same
      rw [formatted] at same
      · cases same
      · exact other
  | case4 c rest one two ih =>
      have plain : '%' ≠ c := fun same => two same.symm
      have printed : formatted (c :: rest) = (formatted rest).map (c :: ·) := by
        rw [formatted]
        · exact one
        · exact two
      rw [printed]
      simp [ih,plain]

theorem tsocketPrintf_eq (tsock : Option Nat) (fmt : Str) (args : List Str) :
    tsocketPrintf tsock fmt args = (printf fmt args).map (fun text => (tsock,text.take 2047 ++ ['\n'])) := by
  have line : ∀ buf : Str, printf ['%','s','\n'] [buf] = some (buf ++ ['\n']) := fun buf => rfl
  cases made : printf fmt args with
  | none => simp [tsocketPrintf,vsnprintf,made]
  | some text =>
      have fits : (text.take 2047 ++ ['\n']).take 2058 = text.take 2047 ++ ['\n'] := by
        rw [List.take_of_length_le]
        simp only [List.length_append,List.length_take,List.length_singleton]
        omega
      simp [tsocketPrintf,vsnprintf,made,line,fits]

-- irc_printf is the same with a socket for its argument.
theorem ircPrintf_eq (sock : Option Nat) (fmt : Str) : ircPrintf sock fmt = tsocketPrintf sock fmt [] := by
  rw [tsocketPrintf_eq,printf_formatted,ircPrintf]

theorem printed_short (short : text.length ≤ 2047) : ircPrintf sock text = some (sock,text ++ ['\n']) ↔ '%' ∉ text := by
  rw [← formatted_iff,ircPrintf]
  constructor
  · intro sent
    obtain ⟨out,made,same⟩ := Option.map_eq_some_iff.mp sent
    have shorter := formatted_shorter made
    rw [List.take_of_length_le (by omega)] at same
    simp only [Prod.mk.injEq,List.append_cancel_right_eq,true_and] at same
    rw [made,same]
  · intro made
    rw [made,Option.map_some,List.take_of_length_le short]

theorem script_short (short : text.length ≤ 2047) (tsock : Option Nat) : jsPutserv tsock text = some (tsock,text ++ ['\n']) := by
  have out : printf ['%','s'] [text] = some text := by simp [printf]
  rw [jsPutserv,tsocketPrintf_eq,out,Option.map_some,List.take_of_length_le short]

theorem broadcast_short (short : text.length ≤ 2047) (plain : '%' ∉ text) (dccs : List DccSession) :
    eggDccbroadcast text dccs = some ((dccs.filter ready).map (fun dcc => (dcc.sock,text ++ ['\n']))) := by
  induction dccs with
  | nil => rfl
  | cons dtmp rest ih =>
      have line : ircPrintf dtmp.sock text = some (dtmp.sock,text ++ ['\n']) := (printed_short short).mpr plain
      cases listens : ready dtmp <;> simp [eggDccbroadcast,listens,line,ih]

theorem sent_as_is (short : text.length ≤ 2047) (tsock : Option Nat) (dccs : List DccSession) : AsIs tsock dccs text ↔ '%' ∉ text := by
  have script := script_short short tsock
  have serv : tsocketPrintf tsock text [] = jsPutserv tsock text ↔ '%' ∉ text := by
    rw [script,← ircPrintf_eq,printed_short short]
  constructor
  · intro asIs
    exact serv.mp (asIs.serv 0)
  · intro plain
    have same := serv.mpr plain
    refine ⟨script,fun _ => same,fun _ => same,fun _ => same,?_,broadcast_short short plain dccs⟩
    intro idx dcc found
    rw [eggPutdcc,found]
    simp [(printed_short short).mpr plain]

-- The greeting goes to the server and to two sessions.
theorem greeting_as_is : AsIs (some 3) [partyline 1 5 none,partyline 2 6 (some 0)] ['h','i'] :=
  (sent_as_is (by decide) (some 3) [partyline 1 5 none,partyline 2 6 (some 0)]).mpr (by decide)

-- Two per cent signs are sent as one.
theorem percent_lost : ¬AsIs (some 3) [] ['%','%'] := by
  intro asIs
  have same := asIs.serv 0
  revert same
  decide

end Trollbot.PutText
