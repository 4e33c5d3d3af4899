import Trollbot.Spelling
import Trollbot.Foundation.Roster
import Mathlib.Data.Set.Image

-- The server's side of a channel: who is on it, and who has been named to the bot.
namespace Trollbot.Irc
open CBuffer IrcParse Roster

structure Who where
  nick : Str
  user : Str
  host : Str

structure NamesEntry where
  symbols : Str
  nick : Str

inductive ServerEvent where
  | join (who : Who) (chan : Str)
  | part (who : Who) (chan : Str) (reason : Option Str)
  | kick (source : Origin) (chan nick : Str) (reason : Option Str)
  | quit (who : Who) (reason : Str)
  | rename (who : Who) (new : Str)
  | names (server target kind chan : Str) (entries : List NamesEntry) (gap : Bool)

-- A message has its last parameter after a colon or as a middle one.
structure ServerMessage where
  event : ServerEvent
  colon : Bool

def Who.origin (who : Who) : Origin := .mask who.nick who.user who.host

def NamesEntry.text (entry : NamesEntry) : Str := entry.symbols ++ entry.nick

namespace ServerEvent

def origin : ServerEvent → Origin
  | .join who _ => who.origin
  | .part who _ _ => who.origin
  | .kick source _ _ _ => source
  | .quit who _ => who.origin
  | .rename who _ => who.origin
  | .names server .. => .server server

def command : ServerEvent → Str
  | .join .. => "JOIN".toList
  | .part .. => "PART".toList
  | .kick .. => "KICK".toList
  | .quit .. => "QUIT".toList
  | .rename .. => "NICK".toList
  | .names .. => "353".toList

def middles : ServerEvent → List Str
  | .part _ chan (some _) => [chan]
  | .kick _ chan _ none => [chan]
  | .kick _ chan nick (some _) => [chan,nick]
  | .names _ target kind chan .. => [target,kind,chan]
  | _ => []

def last : ServerEvent → Str
  | .join _ chan => chan
  | .part _ chan reason => reason.getD chan
  | .kick _ _ nick reason => reason.getD nick
  | .quit _ reason => reason
  | .rename _ new => new
  | .names _ _ _ _ entries gap => IrcParse.join (entries.map NamesEntry.text) ++ if gap then [' '] else []

end ServerEvent

def ServerMessage.message (msg : ServerMessage) : Message :=
  if msg.colon then colonForm (some msg.event.origin) msg.event.command msg.event.middles msg.event.last
  else middleForm (some msg.event.origin) msg.event.command msg.event.middles msg.event.last

-- Names are folded, as the bot compares them.
structure Server where
  bot : Str
  on : Str → Set Str
  told : Str → Set Str

namespace Server

-- What the bot was told of a channel before it joined does not count.
def join (server : Server) (nick chan : Str) : Server :=
  { server with
    on := Function.update server.on chan (insert nick (server.on chan))
    told := Function.update server.told chan (if nick = server.bot then ∅ else insert nick (server.told chan)) }

def leave (server : Server) (nick chan : Str) : Server :=
  { server with
    on := Function.update server.on chan (server.on chan \ {nick})
    told := Function.update server.told chan (server.told chan \ {nick}) }

def quit (server : Server) (nick : Str) : Server :=
  { server with
    on := fun chan => server.on chan \ {nick}
    told := fun chan => server.told chan \ {nick} }

def rename (server : Server) (old new : Str) : Server where
  bot := renamed old new server.bot
  on := fun chan => renamed old new '' server.on chan
  told := fun chan => renamed old new '' server.told chan

def name (server : Server) (chan : Str) (nicks : List Str) : Server :=
  { server with told := Function.update server.told chan (server.told chan ∪ {nick | nick ∈ nicks}) }

def after (server : Server) : ServerEvent → Server
  | .join who chan => server.join (fold who.nick) (fold chan)
  | .part who chan _ => server.leave (fold who.nick) (fold chan)
  | .kick _ chan nick _ => server.leave (fold nick) (fold chan)
  | .quit who _ => server.quit (fold who.nick)
  | .rename who new => server.rename (fold who.nick) (fold new)
  | .names _ _ _ chan entries _ => server.name (fold chan) (entries.map (fun entry => fold entry.nick))

-- Everybody on the channel has been named to the bot since it joined, by a names reply or by a JOIN.
def Complete (server : Server) (chan : Str) : Prop := server.on chan ⊆ server.told chan

end Server

-- What fits the server's channels.
def ServerEvent.Possible (server : Server) : ServerEvent → Prop
  | .join who chan => fold who.nick ∉ server.on (fold chan)
  | .part who chan _ => fold who.nick ∈ server.on (fold chan)
  | .kick _ chan nick _ => fold nick ∈ server.on (fold chan)
  | .quit .. => True
  | .rename who new => fold new = server.bot ∨ (∃ chan, fold new ∈ server.on chan) → fold new = fold who.nick
  | .names _ _ _ chan entries _ => ∀ entry ∈ entries, fold entry.nick ∈ server.on (fold chan)

-- The signs servers put before a nick in a names reply.
def namesSymbols : List Char := ['~','&','@','%','+']

structure NamesEntry.WellFormed (entry : NamesEntry) : Prop where
  symbols : ∀ c ∈ entry.symbols, c ∈ namesSymbols
  nick : entry.nick ≠ [] ∧ ' ' ∉ entry.nick
  head : ∀ c, entry.nick.head? = some c → c ∉ namesSymbols

def ServerEvent.WellFormed : ServerEvent → Prop
  | .join _ chan => Word chan
  | .part _ chan _ => Word chan
  | .kick _ chan nick _ => Word chan ∧ Word nick
  | .quit .. => True
  | .rename _ new => Word new
  | .names _ _ _ _ entries _ => entries ≠ [] ∧ ∀ entry ∈ entries, entry.WellFormed

structure ServerMessage.Sendable (server : Server) (msg : ServerMessage) : Prop where
  possible : msg.event.Possible server
  wellFormed : msg.event.WellFormed
  readable : msg.message.Readable

section
variable {server : Server}

-- A renaming leaves the bot on the channels it is on.
theorem rename_bot (free : new = server.bot ∨ (∃ chan, new ∈ server.on chan) → new = old) (chan : Str) :
    (server.rename old new).bot ∈ (server.rename old new).on chan ↔ server.bot ∈ server.on chan := by
  constructor
  · rintro ⟨nick,member,same⟩
    suffices is : nick = server.bot from is ▸ member
    by_cases first : nick = old
    · by_cases second : server.bot = old
      · exact first.trans second.symm
      · have met : new = server.bot := by
          simpa [Server.rename,renamed,first,second] using same
        exact absurd (met.symm.trans (free (.inl met))) second
    · by_cases second : server.bot = old
      · have met : nick = new := by
          simpa [Server.rename,renamed,first,second] using same
        exact absurd (met.trans (free (.inr ⟨chan,met ▸ member⟩))) first
      · simpa [Server.rename,renamed,first,second] using same
  · intro member
    exact ⟨server.bot,member,rfl⟩

end

end Trollbot.Irc
