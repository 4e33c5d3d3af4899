import Mathlib.Algebra.Ring.Int.Defs
import Mathlib.Algebra.Ring.Nat
import Trollbot.Atoi
import Trollbot.Stackable

-- The address that the bot offers for a DCC CHAT, and what the other side makes of the offer.
namespace Trollbot.Irc
open IrcParse Decimal
open ConfigEngine (printed_cases atoi_printed)

-- An address as it lies in memory.
structure InAddr where
  b0 : UInt8
  b1 : UInt8
  b2 : UInt8
  b3 : UInt8
deriving DecidableEq

-- htonl and ntohl between the memory of an address and a number of the host.
def InAddr.toHost (a : InAddr) : Nat := ((a.b0.toNat * 256 + a.b1.toNat) * 256 + a.b2.toNat) * 256 + a.b3.toNat

def InAddr.ofHost (n : Nat) : InAddr := ⟨(n / 256 ^ 3).toUInt8,(n / 256 ^ 2).toUInt8,(n / 256).toUInt8,n.toUInt8⟩

def inetNtoa (a : InAddr) : Str :=
  printed a.b0.toNat ++ '.' :: printed a.b1.toNat ++ '.' :: printed a.b2.toNat ++ '.' :: printed a.b3.toNat

-- A part of a text with dots: decimal, or behind 0 octal, or behind 0x hexadecimal.
def hexValue (c : Char) : Nat :=
  if c.isDigit then c.toNat - '0'.toNat else if c.isLower then c.toNat - 'a'.toNat + 10 else c.toNat - 'A'.toNat + 10

def addrPart : Str → Option Nat
  | '0' :: 'x' :: s | '0' :: 'X' :: s =>
    if s ≠ [] ∧ s.all (fun c => c.isDigit || c ∈ "abcdefABCDEF".toList) then some (s.foldl (fun n c => 16 * n + hexValue c) 0) else none
  | '0' :: s => if s.all (fun c => c ∈ "01234567".toList) then some (Nat.ofDigitChars 8 s 0) else none
  | s => if s ≠ [] ∧ s.all Char.isDigit then some (Nat.ofDigitChars 10 s 0) else none

-- The last part fills the bytes that are left.
def inetAddr (cp : Str) : Option InAddr := do
  match ← (cp.splitOn '.').mapM addrPart with
  | [a] => if a < 256 ^ 4 then some (.ofHost a) else none
  | [a,b] => if a < 256 ∧ b < 256 ^ 3 then some (.ofHost (a * 256 ^ 3 + b)) else none
  | [a,b,c] => if a < 256 ∧ b < 256 ∧ c < 256 ^ 2 then some (.ofHost (a * 256 ^ 3 + b * 256 ^ 2 + c)) else none
  | [a,b,c,d] => if a < 256 ∧ b < 256 ∧ c < 256 ∧ d < 256 then some (.ofHost (a * 256 ^ 3 + b * 256 ^ 2 + c * 256 + d)) else none
  | _ => none

-- INADDR_NONE is the last address.
def addrNumber (a : Option InAddr) : Nat := (a.map InAddr.toHost).getD (256 ^ 4 - 1)

-- An unsigned number of 32 bits, read as an int.
def asInt (n : Nat) : Int := if n < 2 ^ 31 then n else (n : Int) - 2 ^ 32

-- What the offer reads of a network.
structure DccNet where
  shost : Option Str
  vhost : Option Str
  dccPort : Int

def chatText (addr : Nat) (port : Int) : Str :=
  '\x01' :: "DCC CHAT chat ".toList ++ printed (asInt addr) ++ ' ' :: printed port ++ ['\x01']

-- `gethostbyname` gives the first address of a host.
def reverseDccChat (gethostbyname : Str → Option InAddr) (net : DccNet) (nick : Str) : DccNet × List Output :=
  match net.shost.or net.vhost with
  | none => (net,[tsocketPrintf ("PRIVMSG ".toList ++ nick ++ " :No suitable IP/Port combination found.".toList)])
  | some host =>
    let net := { net with shost := some host }
    match gethostbyname host with
    | none => (net,[])
    | some addr => (net,[tsocketPrintf ("PRIVMSG ".toList ++ nick ++ " :".toList ++ chatText (addrNumber (inetAddr (inetNtoa addr))) net.dccPort)])

-- In 64 bits; a minus sign negates the number there.
def strtoul (s : Str) : Nat :=
  match s.dropWhile ConfigEngine.isspace with
  | '-' :: s => if value s < 2 ^ 64 then (2 ^ 64 - value s) % 2 ^ 64 else 2 ^ 64 - 1
  | '+' :: s => min (value s) (2 ^ 64 - 1)
  | s => min (value s) (2 ^ 64 - 1)

-- Where connect is called, with the address and the port of sin_port. The outer none is a crash.
def initiateDccChat (data : IrcData) : Option (Option (InAddr × Nat)) :=
  match data.rest with
  | none => some none
  | some _ => do
    let _ ← slot data.rest 0
    match ← [0,1,2,3,4].foldlM (fun (given : Option Unit) argc =>
        match given with
        | none => some none
        | some () => (slot data.rest argc).map (fun cell => cell.map (fun _ => ()))) (some ()) with
    | none => some none
    | some () => do
      let ip ← slot data.rest 3
      let ip ← ip
      let port ← slot data.rest 4
      let port ← port
      some (some (.ofHost (strtoul ip % 2 ^ 32),((ConfigEngine.atoi port) % 2 ^ 16).toNat))

theorem ofHost_toHost (a : InAddr) : InAddr.ofHost a.toHost = a := by
  obtain ⟨b0,b1,b2,b3⟩ := a
  have h0 := b0.toNat_lt
  have h1 := b1.toNat_lt
  have h2 := b2.toNat_lt
  have h3 := b3.toNat_lt
  simp only [InAddr.ofHost,InAddr.toHost,InAddr.mk.injEq]
  refine ⟨?_,?_,?_,?_⟩
  all_goals
    apply UInt8.toNat_inj.mp
    simp only [Nat.toUInt8_eq,UInt8.toNat_ofNat']
    omega

theorem toHost_short (a : InAddr) : a.toHost < 2 ^ 32 := by
  obtain ⟨b0,b1,b2,b3⟩ := a
  have h0 := b0.toNat_lt
  have h1 := b1.toNat_lt
  have h2 := b2.toNat_lt
  have h3 := b3.toNat_lt
  simp only [InAddr.toHost]
  omega

theorem addrPart_printed (b : UInt8) : addrPart (printed b.toNat) = some b.toNat := by
  have all : ∀ n < 256, addrPart (printed (n : Nat)) = some n := by decide +kernel
  exact all b.toNat b.toNat_lt

-- The text of an address is read as the address.
theorem inetAddr_inetNtoa (a : InAddr) : inetAddr (inetNtoa a) = some a := by
  have whole : inetNtoa a = List.intercalate ['.'] [printed a.b0.toNat,printed a.b1.toNat,printed a.b2.toNat,printed a.b3.toNat] := by
    simp [inetNtoa,List.intercalate]
  have parts : (inetNtoa a).splitOn '.' = [printed a.b0.toNat,printed a.b1.toNat,printed a.b2.toNat,printed a.b3.toNat] := by
    rw [whole]
    refine List.splitOn_intercalate '.' ?_ (by simp)
    intro part member dot
    simp only [List.mem_cons,List.not_mem_nil,or_false] at member
    rcases member with rfl | rfl | rfl | rfl
    all_goals
      rcases printed_clean _ '.' dot with minus | digit
      · cases minus
      · cases digit
  have short : a.b0.toNat < 256 ∧ a.b1.toNat < 256 ∧ a.b2.toNat < 256 ∧ a.b3.toNat < 256 :=
    ⟨a.b0.toNat_lt,a.b1.toNat_lt,a.b2.toNat_lt,a.b3.toNat_lt⟩
  rw [inetAddr,parts]
  simp only [List.mapM_cons,List.mapM_nil,addrPart_printed,Option.bind_eq_bind,Option.bind_some,Option.pure_def,if_pos short]
  have same : a.b0.toNat * 256 ^ 3 + a.b1.toNat * 256 ^ 2 + a.b2.toNat * 256 + a.b3.toNat = a.toHost := by
    simp only [InAddr.toHost]
    omega
  rw [same,ofHost_toHost]

-- In 32 bits the sign does not matter.
theorem strtoul_printed (n : Nat) (short : n < 2 ^ 32) : strtoul (printed (asInt n)) % 2 ^ 32 = n := by
  have read : ∀ m : Nat, value (Nat.toDigits 10 m) = m := by
    intro m
    have ends : NoDigit [] := by simp [NoDigit]
    have whole := value_digits m ends
    rwa [List.append_nil] at whole
  unfold strtoul
  have cases' := printed_cases (asInt n) []
  simp only [List.append_nil] at cases'
  rcases cases' with ⟨negative,first⟩ | ⟨positive,c,s,first,shape,minus,plus⟩
  · rw [first]
    simp only [read]
    unfold asInt at negative ⊢
    split at negative
    · omega
    · split
      · omega
      · split <;> omega
  · rw [first]
    split
    · rename_i same
      exact absurd (List.cons.inj same).1 minus
    · rename_i same
      exact absurd (List.cons.inj same).1 plus
    · rw [shape,read]
      unfold asInt at positive ⊢
      split
      · omega
      · rename_i large
        rw [if_neg large] at positive
        omega

-- What the bot says, as a message.
def offer (nick : Str) (addr : InAddr) (port : Int) (origin : Option Origin) : Message :=
  ⟨origin,"PRIVMSG".toList,[nick],some (chatText addr.toHost port)⟩

def offerWords (addr : InAddr) (port : Int) : List Str :=
  ['\x01' :: "DCC".toList,"CHAT".toList,"chat".toList,printed (asInt addr.toHost),printed port ++ ['\x01']]

theorem offer_words (addr : InAddr) (port : Int) : join (offerWords addr port) = chatText addr.toHost port := by
  simp [offerWords,join,chatText]

theorem printed_word (n : Int) : ' ' ∉ printed n := by
  intro space
  rcases printed_clean n ' ' space with minus | digit
  · cases minus
  · cases digit

theorem offered_number (a : InAddr) : addrNumber (inetAddr (inetNtoa a)) = a.toHost := by
  rw [inetAddr_inetNtoa]
  rfl

-- The other side reads the same address and port.
theorem offer_read (nick : Str) (addr : InAddr) (port : Int) (origin : Option Origin) (netNick : Str) (well : (offer nick addr port origin).Readable) :
    ∃ data, decode netNick (offer nick addr port origin).render = some data ∧
      initiateDccChat data = some (some (addr,(port % 2 ^ 16).toNat)) := by
  obtain ⟨data,read,-⟩ := decode_readout netNick (offer nick addr port origin) well
  have each : ∀ w ∈ offerWords addr port, w ≠ [] ∧ ' ' ∉ w := by
    intro w member
    simp only [offerWords,List.mem_cons,List.not_mem_nil,or_false] at member
    rcases member with rfl | rfl | rfl | rfl | rfl
    · decide
    · decide
    · decide
    · exact ⟨printed_some _,printed_word _⟩
    · exact ⟨by simp,by simp [printed_word]⟩
  have trailing : (offer nick addr port origin).trailing = some (join (offerWords addr port) ++ if false then [' '] else []) := by
    rw [offer_words]
    simp [offer]
  obtain ⟨slots,rest,words'⟩ := decode_words netNick (offer nick addr port origin) well false trailing (by simp [offerWords]) each read
  refine ⟨data,read,?_⟩
  have cell : ∀ i w, (offerWords addr port)[i]? = some w → slot (some slots) i = some (some w) := fun i w here => slot_word words' here
  unfold initiateDccChat
  rw [rest]
  simp only [List.foldlM_cons,List.foldlM_nil,cell 0 _ rfl,cell 1 _ rfl,cell 2 _ rfl,cell 3 _ rfl,cell 4 _ rfl,Option.bind_eq_bind,Option.bind_some,
    Option.map_some,Option.pure_def]
  rw [strtoul_printed addr.toHost (toHost_short addr),ofHost_toHost,atoi_printed port (by simp [NoDigit])]

-- What a line may hold.
def Spotless (s : Str) : Prop := ∀ c ∈ s, c ≠ CBuffer.nul ∧ c ≠ '\r' ∧ c ≠ '\n'

theorem Spotless.append (first : Spotless s) (second : Spotless t) : Spotless (s ++ t) := by
  intro c member
  rcases List.mem_append.mp member with front | behind
  · exact first c front
  · exact second c behind

theorem printed_spotless (n : Int) : Spotless (printed n) := by
  intro c member
  rcases printed_clean n c member with rfl | digit
  · decide
  · refine ⟨?_,?_,?_⟩
    all_goals
      rintro rfl
      exact absurd digit (by decide)

theorem chatText_clean (addr : Nat) (port : Int) : Spotless (chatText addr port) := by
  have front : Spotless ('\x01' :: "DCC CHAT chat ".toList) := by unfold Spotless; decide
  have space : Spotless [' '] := by unfold Spotless; decide
  have last : Spotless ['\x01'] := by unfold Spotless; decide
  have whole := ((front.append (printed_spotless (asInt addr))).append space).append ((printed_spotless port).append last)
  simpa [chatText] using whole

-- An offer to a nick, from a sender the server names, is a message.
theorem offer_readable {nick : Str} {origin : Origin} (addr : InAddr) (port : Int) (word : Word nick) (clean : Spotless nick)
    (well : origin.WellFormed) (one : ' ' ∉ origin.text) (named : Spotless origin.text) : (offer nick addr port (some origin)).Readable := by
  refine ⟨?_,show Word "PRIVMSG".toList by unfold Word; decide,?_,.inr (by simp [offer]),?_⟩
  · rintro other ⟨⟩
    exact ⟨well,one⟩
  · intro middle member
    obtain rfl := List.mem_singleton.mp member
    exact word
  · have rendered : (offer nick addr port (some origin)).render =
        [':'] ++ (origin.text ++ (" PRIVMSG ".toList ++ (nick ++ (" :".toList ++ chatText addr.toHost port)))) := by
      simp [offer,Message.render,Message.head,middleText,trailer]
    have colon : Spotless [':'] := by unfold Spotless; decide
    have verb : Spotless " PRIVMSG ".toList := by unfold Spotless; decide
    have behind : Spotless " :".toList := by unfold Spotless; decide
    rw [rendered]
    exact colon.append (named.append (verb.append (clean.append (behind.append (chatText_clean _ port)))))

-- A loop that comes back has run each trigger that its test hits.
theorem each_ran {scripts : Nat → Network → IrcData → Result} {data : IrcData} {hit : Trigger Handler → Option Bool} {trigs : List (Trigger Handler)}
    (done : eachTrigger scripts data type hit place trigs net = some (later,out)) (here : trigs[i]? = some trig) (hits : hit trig = some true)
    (handled : trig.handler ≠ none) : place + i ∈ ran type out := by
  induction trigs generalizing net place i later out with
  | nil => cases here
  | cons first rest ih =>
      simp only [eachTrigger,Option.bind_eq_bind,Option.bind_eq_some_iff] at done
      obtain ⟨found,tested,done⟩ := done
      obtain ⟨middle,before,next,more,one,others,same⟩ := andThen_runs.mp done
      cases same
      rw [ran_append]
      cases i with
      | zero =>
          obtain rfl : first = trig := by simpa using here
          obtain rfl : found = true := Option.some.inj (tested.symm.trans hits)
          obtain ⟨handler,bound⟩ := Option.ne_none_iff_exists'.mp handled
          simp only [tryTrigger,runTrigger,bound,if_true] at one
          obtain ⟨⟨changed,sent⟩,-,one⟩ := Option.bind_eq_some_iff.mp one
          cases one
          exact List.mem_append_left _ (by simp [ran])
      | succ i =>
          have inside := ih others (by simpa using here)
          rw [show place + (i + 1) = place + 1 + i by omega]
          exact List.mem_append_right _ inside

-- A private message to the bot runs the MSG triggers that it begins with.
theorem private_runs {scripts : Nat → Network → IrcData → Result} {theirs later : Network} {msg : Message} (readable : msg.Readable)
    (is : msg.command = "PRIVMSG".toList) (words : parameters msg = [target,text]) (spoken : said msg = some text)
    (bot : theirs.botnick = some own) (addressed : tstrcasecmp target own = 0)
    (done : parseIrcLine scripts theirs msg.render = some (later,out)) (here : (theirs.trigs .msg).items[place]? = some trig)
    (begins : startsWith trig.mask text = true) (handled : trig.handler ≠ none) : place ∈ ran .msg out := by
  obtain ⟨data,read,readout⟩ := decode_readout theirs.nick msg readable
  obtain ⟨head,-⟩ := two_words words
  obtain ⟨slots,params,first⟩ := head_param readout head
  rw [line_matched read readout is (by decide) (by decide),match_privmsg (readout.command.trans is)] at done
  simp only [matchPrivmsg,params,first,bot,if_pos addressed,onRest_said readout,spoken,Option.bind_eq_bind,Option.bind_some] at done
  obtain ⟨middle,before,next,more,start,-,same⟩ := andThen_runs.mp done
  cases same
  rw [ran_append]
  have inside := each_ran start here (by simp [begins]) handled
  rw [Nat.zero_add] at inside
  exact List.mem_append_left _ inside

-- An offer that the bot makes goes to the server as a message. Behind the sender's name it is a message
-- again, a bot of that nick runs its handler of offers on it, and takes it for the address and the port
-- that were meant, also where the address is printed as a negative number.
theorem offer_taken (gethostbyname : Str → Option InAddr) (net : DccNet) (nick host : Str) (addr : InAddr) (known : net.shost.or net.vhost = some host)
    (resolved : gethostbyname host = some addr) (ranged : 0 ≤ net.dccPort ∧ net.dccPort < 2 ^ 16)
    (fits : (offer nick addr net.dccPort none).render.length ≤ 2047) (word : Word nick) (clean : Spotless nick) :
    reverseDccChat gethostbyname net nick = ({ net with shost := some host },[.sent ((offer nick addr net.dccPort none).render ++ ['\n'])]) ∧
      ∀ origin : Origin, origin.WellFormed → ' ' ∉ origin.text → Spotless origin.text →
        (offer nick addr net.dccPort (some origin)).Readable ∧
        ∀ (scripts : Nat → Network → IrcData → Result) (theirs later : Network) (own : Str) (out : List Output),
          theirs.botnick = some own → tstrcasecmp nick own = 0 →
          parseIrcLine scripts theirs (offer nick addr net.dccPort (some origin)).render = some (later,out) →
          (∀ place trig, (theirs.trigs .msg).items[place]? = some trig → trig.mask = '\x01' :: "DCC CHAT".toList → trig.handler ≠ none →
            place ∈ ran .msg out) ∧
          ∃ data, decode theirs.nick (offer nick addr net.dccPort (some origin)).render = some data ∧
            initiateDccChat data = some (some (addr,net.dccPort.toNat)) := by
  refine ⟨?_,?_⟩
  · have text : "PRIVMSG ".toList ++ nick ++ " :".toList ++ chatText addr.toHost net.dccPort = (offer nick addr net.dccPort none).render := by
      simp [offer,Message.render,Message.head,middleText,trailer]
    unfold reverseDccChat
    rw [known]
    simp only [resolved,offered_number,text,tsocketPrintf,List.take_of_length_le fits]
  · intro origin well one named
    have readable := offer_readable addr net.dccPort word clean well one named
    refine ⟨readable,?_⟩
    intro scripts theirs later own out bot addressed done
    refine ⟨?_,?_⟩
    · intro place trig here masked handled
      have begins : startsWith trig.mask (chatText addr.toHost net.dccPort) = true := by
        rw [masked,startsWith,List.isPrefixOf_iff_prefix]
        exact ⟨" chat ".toList ++ printed (asInt addr.toHost) ++ ' ' :: printed net.dccPort ++ ['\x01'],by simp [chatText]⟩
      exact private_runs readable rfl rfl (said_some.mpr ⟨rfl,by simp [chatText]⟩) bot addressed done here begins handled
    · obtain ⟨data,read,done⟩ := offer_read nick addr net.dccPort (some origin) theirs.nick readable
      refine ⟨data,read,?_⟩
      rw [done,Int.emod_eq_of_lt ranged.1 ranged.2]

-- An address from 128.0.0.0 on, offered to a bot that takes it.
def farNet : DccNet := ⟨some "bot.example".toList,none,4928⟩

def annNet : Network :=
  ⟨"ann".toList,some "ann".toList,none,none,.idle,[],fun type =>
    if type = .msg then (Chain.empty.add (newTrigger none .msg "hello".toList none (some (.other 0)))).add
      (newTrigger none .msg ('\x01' :: "DCC CHAT".toList) none (some (.other 1))) else Chain.empty⟩

def botOrigin : Origin := .mask "bot".toList "b".toList "h".toList

theorem far_offer : reverseDccChat (fun _ => some ⟨192,0,2,1⟩) farNet "ann".toList =
      (farNet,[.sent ("PRIVMSG ann :\x01DCC CHAT chat -1073741311 4928\x01\n".toList)]) ∧
    ∃ later out data, parseIrcLine silentScript annNet ":bot!b@h PRIVMSG ann :\x01DCC CHAT chat -1073741311 4928\x01".toList = some (later,out) ∧
      1 ∈ ran .msg out ∧ decode annNet.nick ":bot!b@h PRIVMSG ann :\x01DCC CHAT chat -1073741311 4928\x01".toList = some data ∧
      initiateDccChat data = some (some (⟨192,0,2,1⟩,4928)) := by
  have fits : (offer "ann".toList ⟨192,0,2,1⟩ farNet.dccPort none).render.length ≤ 2047 := by decide +kernel
  have rendered : (offer "ann".toList ⟨192,0,2,1⟩ farNet.dccPort none).render ++ ['\n'] =
      "PRIVMSG ann :\x01DCC CHAT chat -1073741311 4928\x01\n".toList := by decide +kernel
  have heard : (offer "ann".toList ⟨192,0,2,1⟩ farNet.dccPort (some botOrigin)).render =
      ":bot!b@h PRIVMSG ann :\x01DCC CHAT chat -1073741311 4928\x01".toList := by decide +kernel
  obtain ⟨said,taken⟩ := offer_taken (fun _ => some ⟨192,0,2,1⟩) farNet "ann".toList "bot.example".toList ⟨192,0,2,1⟩ rfl rfl (by decide) fits
    (by unfold Word; decide) (by unfold Spotless; decide)
  obtain ⟨-,handles⟩ := taken botOrigin (by simp [botOrigin,Origin.WellFormed]) (by decide) (by unfold Spotless; decide)
  rw [rendered] at said
  rw [heard] at handles
  have comes : (parseIrcLine silentScript annNet ":bot!b@h PRIVMSG ann :\x01DCC CHAT chat -1073741311 4928\x01".toList).isSome = true := by
    decide +kernel
  obtain ⟨⟨later,out⟩,done⟩ := Option.isSome_iff_exists.mp comes
  obtain ⟨runs,data,read,address⟩ := handles silentScript annNet later "ann".toList out rfl (by decide) done
  exact ⟨said,later,out,data,done,runs 1 _ rfl rfl (by simp [newTrigger]),read,address⟩

end Trollbot.Irc
