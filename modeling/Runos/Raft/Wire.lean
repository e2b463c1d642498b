import Runos.Lib.Stream
import Runos.Raft.Server

/-!
# The text protocol of the nodes (`simple_serialize.hpp`, `simple_serialize.cpp`)

A message is a line of words and numbers between blanks. `serialize` is `MessageProcessor::serialize`
of what a node sends to another; `readServerMessage` is what `process_server_message` reads of a
line, before it is handled. Unsigned numbers have 64 bits.

A vector is preceded by its length, and as much room is reserved at once: `Room` says for how many
elements there is room, and beyond it the call of `reserve` throws.
-/

namespace Raft

open Stream

/-! ## Output -/

def EntryInfo.text (info : EntryInfo) : List Char := showNat info.index ++ ' ' :: showNat info.term

def MessageHeader.text (header : MessageHeader) : List Char :=
  header.peerId.toList ++ ' ' :: (header.destinationId.toList ++ ' ' ::
    (showNat header.messageId ++ ' ' :: (showNat header.term ++ ' ' ::
      (header.logState.commit.text ++ ' ' :: header.logState.uncommit.text))))

def Entry.text (entry : Entry String) : List Char := entry.info.text ++ ' ' :: entry.data.toList

/-- `operator<<` of a vector. -/
def vectorText {α : Type} (text : α → List Char) (vec : List α) : List Char :=
  showNat vec.length ++ ' ' :: vec.flatMap fun elem => text elem ++ [' ']

def AppendEntriesRequest.text (request : AppendEntriesRequest String) : List Char :=
  "AppendEntriesRequest ".toList ++ request.header.text ++ ' ' :: request.previousEntry.text ++
    ' ' :: vectorText Entry.text request.entries ++ ['\n']

def AppendEntriesResponse.text (response : AppendEntriesResponse) : List Char :=
  "AppendEntriesResponse ".toList ++ response.header.text ++ ' ' :: showBool response.success ++
    " \n".toList

def VoteRequest.text (request : VoteRequest) : List Char :=
  "VoteRequest ".toList ++ request.header.text ++ " \n".toList

def VoteResponse.text (response : VoteResponse) : List Char :=
  "VoteResponse ".toList ++ response.header.text ++ ' ' :: showBool response.voteGranted ++
    " \n".toList

/-- The ids of a client request are not sent. -/
def ClientRequest.text (request : ClientRequest String) : List Char :=
  "ClientRequest ".toList ++ request.data.toList ++ " \n".toList

def Message.text : Message String → List Char
  | .voteRequest request => request.text
  | .voteResponse response => response.text
  | .appendEntriesRequest request => request.text
  | .appendEntriesResponse response => response.text
  | .clientRequest request => request.text

def serialize (message : Message String) : String := String.ofList message.text

/-! ## Input -/

structure PeerConfig where
  name : String
  address : String
  peerPort : Int
  clientPort : Int
  isNew : Bool
  deriving DecidableEq, Repr

/-- Without `request_watermark`, which is not read. -/
structure ConfigChangeRequest where
  header : MessageHeader
  previousEntry : Nat
  peerConfigs : List PeerConfig
  deriving DecidableEq, Repr

/-- How many elements a vector can be given room for, within the range of `size_t`. -/
structure Room where
  entries : Nat
  peerConfigs : Nat
  entries_lt : entries < 2 ^ 64
  peerConfigs_lt : peerConfigs < 2 ^ 64

def readEntryInfo : Extract EntryInfo := do
  let index ← unsigned 64
  let term ← unsigned 64
  return { index, term }

def readHeader : Extract MessageHeader := do
  let peerId ← word
  let destinationId ← word
  let messageId ← unsigned 64
  let term ← unsigned 64
  let commit ← readEntryInfo
  let uncommit ← readEntryInfo
  return { peerId, destinationId, messageId, term, logState := { commit, uncommit } }

def readEntry : Extract (Entry String) := do
  let info ← readEntryInfo
  let data ← word
  return { info, data }

def readElems {α : Type} (elem : Extract α) : Nat → Extract (List α)
  | 0 => return []
  | n + 1 => do
    let x ← elem
    let xs ← readElems elem n
    return x :: xs

/-- `operator>>` of a vector. -/
def readVector {α : Type} (room : Nat) (elem : Extract α) : Extract (List α) := do
  let numElems ← unsigned 64
  if room < numElems then throw .exception
  else readElems elem numElems

def readAppendEntriesRequest (room : Room) : Extract (AppendEntriesRequest String) := do
  let header ← readHeader
  let previousEntry ← readEntryInfo
  let entries ← readVector room.entries readEntry
  return { header, previousEntry, entries }

def readAppendEntriesResponse : Extract AppendEntriesResponse := do
  let header ← readHeader
  let success ← bool
  return { header, success }

def readVoteRequest : Extract VoteRequest := do
  let header ← readHeader
  return { header }

def readVoteResponse : Extract VoteResponse := do
  let header ← readHeader
  let voteGranted ← bool
  return { header, voteGranted }

def readClientRequest : Extract (ClientRequest String) := do
  let data ← word
  return { clientId := "", messageId := "", data }

def readPeerConfig : Extract PeerConfig := do
  let name ← word
  let address ← word
  let peerPort ← signed 32
  let clientPort ← signed 32
  let isNew ← bool
  return { name, address, peerPort, clientPort, isNew }

def readConfigChangeRequest (room : Room) : Extract ConfigChangeRequest := do
  let header ← readHeader
  let previousEntry ← unsigned 64
  let peerConfigs ← readVector room.peerConfigs readPeerConfig
  return { header, previousEntry, peerConfigs }

/-- A message on the port of the nodes. -/
inductive ServerMessage
  | rpc (message : Message String)
  | configChangeRequest (request : ConfigChangeRequest)
  deriving DecidableEq, Repr

/-- The rest of a line that starts with a name; none for a name that is not one of a message. What
follows the message on the line is not looked at. -/
def readBody (room : Room) (name : String) : Extract (Option ServerMessage) :=
  if name = "AppendEntriesRequest" then do
    let request ← readAppendEntriesRequest room
    return some (.rpc (.appendEntriesRequest request))
  else if name = "AppendEntriesResponse" then do
    let response ← readAppendEntriesResponse
    return some (.rpc (.appendEntriesResponse response))
  else if name = "ClientRequest" then do
    let request ← readClientRequest
    return some (.rpc (.clientRequest request))
  else if name = "VoteResponse" then do
    let response ← readVoteResponse
    return some (.rpc (.voteResponse response))
  else if name = "VoteRequest" then do
    let request ← readVoteRequest
    return some (.rpc (.voteRequest request))
  else if name = "ConfigChangeRequest" then do
    let request ← readConfigChangeRequest room
    return some (.configChangeRequest request)
  else
    return none

/-- A line on the port of the nodes. -/
def readServerMessage (room : Room) : Extract (Option ServerMessage) := do
  let name ← word
  readBody room name

end Raft
