import Macha.Metadata.Types

/-!
# Torrent requests

The durable half of a torrent job (`torrent_request.hpp`) and the join a
reconciliation applies to two replicas' collections.
-/

namespace Macha

inductive TorrentPhase where
  | awaitingNode
  | downloading
  | importing
  | completed
  | failed
  | cancelled
deriving DecidableEq, Repr

def TorrentPhase.value : TorrentPhase → Nat
  | awaitingNode => 0
  | downloading => 1
  | importing => 2
  | completed => 3
  | failed => 4
  | cancelled => 5

inductive TorrentDesired where
  | active
  | paused
  | cancelled
deriving DecidableEq, Repr

def TorrentDesired.value : TorrentDesired → Nat
  | active => 0
  | paused => 1
  | cancelled => 2

structure TorrentClaim where
  nodeId : NodeId := 0
  epoch : Nat := 0
  claimedUnixMs : Nat := 0
deriving DecidableEq, Repr

def TorrentClaim.key (c : TorrentClaim) : NodeId ×ₗ Nat ×ₗ Nat :=
  toLex (c.nodeId, toLex (c.epoch, c.claimedUnixMs))

structure TorrentRequest where
  id : ByteString := []
  infoHash : ByteString := []
  source : ByteString := []
  createdUnixMs : Nat := 0
  createdBy : NodeId := 0
  pinnedNodeId : Option NodeId := none
  removeAfterMs : Option Nat := none
  settingsChangedUnixMs : Nat := 0
  settingsChangedBy : NodeId := 0
  desired : TorrentDesired := .active
  desiredChangedUnixMs : Nat := 0
  desiredChangedBy : NodeId := 0
  claim : Option TorrentClaim := none
  phase : TorrentPhase := .awaitingNode
  phaseEpoch : Nat := 0
  progressUnixMs : Nat := 0
  name : ByteString := []
  bytesTotal : Nat := 0
  ingestJobId : ByteString := []
  errorCode : ByteString := []
  error : ByteString := []
  completedUnixMs : Nat := 0
  removedUnixMs : Nat := 0
deriving DecidableEq, Repr

namespace TorrentRequest

/-- What the adding node set once, and the operator's settings. -/
def requestKey (r : TorrentRequest) :
    ByteString ×ₗ ByteString ×ₗ ByteString ×ₗ Nat ×ₗ NodeId ×ₗ WithBot NodeId ×ₗ WithBot Nat ×ₗ
      Nat ×ₗ NodeId :=
  toLex (r.id, toLex (r.infoHash, toLex (r.source, toLex (r.createdUnixMs, toLex (r.createdBy,
    toLex (optionKey r.pinnedNodeId, toLex (optionKey r.removeAfterMs,
      toLex (r.settingsChangedUnixMs, r.settingsChangedBy))))))))

/-- The operator's intent and the claim. -/
def intentKey (r : TorrentRequest) : Nat ×ₗ Nat ×ₗ NodeId ×ₗ WithBot (NodeId ×ₗ Nat ×ₗ Nat) :=
  toLex (r.desired.value, toLex (r.desiredChangedUnixMs, toLex (r.desiredChangedBy,
    optionKey (r.claim.map TorrentClaim.key))))

/-- What the owner of the claim writes. -/
def phaseKey (r : TorrentRequest) :
    Nat ×ₗ Nat ×ₗ Nat ×ₗ ByteString ×ₗ Nat ×ₗ ByteString ×ₗ ByteString ×ₗ ByteString ×ₗ Nat ×ₗ
      Nat :=
  toLex (r.phase.value, toLex (r.phaseEpoch, toLex (r.progressUnixMs, toLex (r.name,
    toLex (r.bytesTotal, toLex (r.ingestJobId, toLex (r.errorCode, toLex (r.error,
      toLex (r.completedUnixMs, r.removedUnixMs)))))))))

/-- The defaulted comparison: the fields in declaration order. -/
def le (a b : TorrentRequest) : Bool :=
  decide (toLex (a.requestKey, toLex (a.intentKey, a.phaseKey)) ≤
    toLex (b.requestKey, toLex (b.intentKey, b.phaseKey)))

end TorrentRequest

abbrev TorrentRequests := OrdMap ByteString TorrentRequest

/-- The request with the greater key, else the greater request. -/
def later {κ : Type} [LinearOrder κ] (a : TorrentRequest) (ka : κ) (b : TorrentRequest) (kb : κ) :
    TorrentRequest :=
  if ka ≠ kb then (if kb < ka then a else b) else if b.le a then a else b

/-- Higher epoch; then the earlier claim; then the lower node id. -/
def claimBeats (x y : TorrentClaim) : Bool :=
  if x.epoch ≠ y.epoch then decide (y.epoch < x.epoch)
  else if x.claimedUnixMs ≠ y.claimedUnixMs then decide (x.claimedUnixMs < y.claimedUnixMs)
  else decide (x.nodeId < y.nodeId)

def live (request : TorrentRequest) : Bool :=
  request.removedUnixMs == 0 && request.phase != .cancelled && request.phase != .failed &&
    request.desired != .cancelled

def mergeTorrentRequest (a b : TorrentRequest) : TorrentRequest :=
  let out := if b.le a then a else b
  let settings := later a (toLex (a.settingsChangedUnixMs, a.settingsChangedBy))
    b (toLex (b.settingsChangedUnixMs, b.settingsChangedBy))
  -- Cancel is final: it beats any later pause or resume.
  let intent := later
    a (toLex (a.desired == .cancelled, toLex (a.desiredChangedUnixMs, a.desiredChangedBy)))
    b (toLex (b.desired == .cancelled, toLex (b.desiredChangedUnixMs, b.desiredChangedBy)))
  let owner := later
    a (toLex (a.phaseEpoch, toLex (a.phase.value, a.progressUnixMs)))
    b (toLex (b.phaseEpoch, toLex (b.phase.value, b.progressUnixMs)))
  { out with
    pinnedNodeId := settings.pinnedNodeId
    removeAfterMs := settings.removeAfterMs
    settingsChangedUnixMs := settings.settingsChangedUnixMs
    settingsChangedBy := settings.settingsChangedBy
    desired := intent.desired
    desiredChangedUnixMs := intent.desiredChangedUnixMs
    desiredChangedBy := intent.desiredChangedBy
    claim := match a.claim, b.claim with
      | some x, some y => if claimBeats x y then some x else some y
      | some x, none => some x
      | none, y => y
    phase := owner.phase
    phaseEpoch := owner.phaseEpoch
    progressUnixMs := owner.progressUnixMs
    name := owner.name
    bytesTotal := owner.bytesTotal
    ingestJobId := owner.ingestJobId
    errorCode := owner.errorCode
    error := owner.error
    completedUnixMs := owner.completedUnixMs
    removedUnixMs := max a.removedUnixMs b.removedUnixMs }

/-- A key on one side only: new there, or erased on the other after its grace.
Erased stands unless this side changed it since the base. -/
def keepOneSide (base : TorrentRequests) (key : ByteString) (present : TorrentRequest)
    (out : TorrentRequests) : TorrentRequests :=
  if base[key]? = some present then out else out.insertIfNew key present

/-- The two collections joined key by key. -/
def joinTorrentRequests (base left right : TorrentRequests) : TorrentRequests :=
  let out := left.toList.foldl (fun out (key, l) =>
    match right[key]? with
    | some r => out.insertIfNew key (mergeTorrentRequest l r)
    | none => keepOneSide base key l out) ∅
  right.toList.foldl (fun out (key, r) =>
    if left.contains key then out else keepOneSide base key r out) out

/-- A request that lost its torrent to `winner`. -/
def cancelDuplicate (winner loser : TorrentRequest) : TorrentRequest :=
  { loser with
    desired := .cancelled
    desiredChangedUnixMs := max loser.desiredChangedUnixMs winner.createdUnixMs
    desiredChangedBy := 0
    errorCode := bytes "duplicate_torrent"
    error := bytes "request " ++ winner.id ++ bytes " holds the same torrent" }

/-- The live requests of each info hash, as keys of the collection. -/
def liveByHash (out : TorrentRequests) : OrdMap ByteString (List (ByteString × TorrentRequest)) :=
  out.toList.foldl (fun groups (key, request) =>
    if live request && !request.infoHash.isEmpty then
      groups.insert request.infoHash (groups.getD request.infoHash [] ++ [(key, request)])
    else groups) ∅

/-- The order in which two nodes' adds of one torrent are settled. -/
def addedBefore (x y : ByteString × TorrentRequest) : Bool :=
  decide (toLex (x.2.createdUnixMs, x.2.id) ≤ toLex (y.2.createdUnixMs, y.2.id))

/-- Of the live requests for one info hash the earliest keeps it. -/
def settleDuplicates (out : TorrentRequests) (group : List (ByteString × TorrentRequest)) :
    TorrentRequests :=
  match group.mergeSort addedBefore with
  | [] => out
  | winner :: losers =>
    losers.foldl (fun out (key, loser) => out.insert key (cancelDuplicate winner.2 loser)) out

def mergeTorrentRequests (base left right : TorrentRequests) : TorrentRequests :=
  let out := joinTorrentRequests base left right
  (liveByHash out).toList.foldl (fun out (_, group) => settleDuplicates out group) out

end Macha
