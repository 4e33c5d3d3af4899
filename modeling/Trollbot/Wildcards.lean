import Trollbot.Foundation.Machine
import Trollbot.IrcTrigger

namespace Trollbot
open Machine
open Irc (isspace)

-- The variables of matchwilds. A pointer into the text is the rest of it, none one past its
-- terminator; `last` holds lasthay and lastneedle, which are set and cleared together.
structure Wild where
  haystack : Option Str
  needle : Str
  escaped : Bool
  last : Option (Option Str × Str)
deriving DecidableEq

-- The character after a wildcard did not come: back to where the last star may stop later.
def Wild.back (st : Wild) : Outcome Wild Nat :=
  match st.last with
  | none => .done 1
  | some (lasthay,lastneedle) => .next { st with haystack := lasthay, needle := lastneedle, last := none }

-- One turn of the loop, or the test after it.
def wildStep (st : Wild) : Outcome Wild Nat :=
  match st.needle,st.haystack with
  | _,none => .fault
  | [],some haystack => .done (if haystack = [] then 0 else 1)
  | c :: needle,some [] => .done (if c = '*' ∧ needle = [] ∧ st.escaped = false then 0 else 1)
  | c :: needle,some (h :: haystack) =>
    let escaped := if c = '\\' then true else st.escaped
    match (if c = '\\' then needle else c :: needle) with
    | [] => Wild.back { st with needle := [], escaped := escaped }
    | d :: more =>
      if d = '?' ∧ escaped = false then .next { st with haystack := some haystack, needle := more, escaped := escaped }
      else if d = '*' ∧ escaped = false then
        let stop := (h :: haystack).dropWhile (fun e => some e ≠ more.head?)
        .next { haystack := some stop, needle := more, escaped := escaped, last := some (if stop = [] then none else some stop.tail,d :: more) }
      else if d = '%' ∧ escaped = false then
        let stop := (h :: haystack).dropWhile (fun e => !isspace e && some e ≠ more.head?)
        .next { st with haystack := some stop, needle := more, escaped := escaped }
      else if d = '~' ∧ escaped = false then
        if isspace h then .next { st with haystack := some (haystack.dropWhile isspace), needle := more, escaped := escaped }
        else .done 1
      else if d ≠ h then Wild.back { st with needle := d :: more, escaped := escaped }
      else .next { st with haystack := some haystack, needle := more, escaped := false }

-- 0 for a match. A star that stopped too early is tried again, once for each stop.
def matchwilds : Option Str → Option Str → Option Nat
  | some haystack,some needle =>
    match runFor wildStep ((haystack.length + 2) * (needle.length + 2)) ⟨some haystack,needle,false,none⟩ with
    | .done result => some result
    | _ => none
  | _,_ => some 1

end Trollbot
