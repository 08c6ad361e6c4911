import Macha.Library.Sampling
import Macha.Metadata.Types

/-!
# Placement

`placement.cpp`: the capacity a number of replicas leaves, the quotas of a
32-bit shard space that follow the capacities, and the two orders in which nodes
are asked to keep an object. Digests and scores are parameters.
-/

namespace Macha.Placement

def placementShards : Nat := 2 ^ 32

def maxU64 : Nat := 2 ^ 64 - 1

structure WaterLevel where
  numerator : Nat := 0
  denominator : Nat := 1
deriving DecidableEq, Repr

/-- The loop of `water_level` over the capacities in ascending order: `k` of
`size` are behind it, with the sum `total`. -/
def waterLoop (replicas size : Nat) (k total : Nat) : List Nat → WaterLevel
  | [] => {}
  | capacity :: rest =>
    let total := total + capacity
    let signedDenominator : Int := replicas - size + k + 1
    if signedDenominator ≤ 0 then waterLoop replicas size (k + 1) total rest
    else
      let denominator := signedDenominator.toNat
      match rest with
      | [] => ⟨total, denominator⟩
      | next :: _ =>
        if total ≤ denominator * next then ⟨total, denominator⟩
        else waterLoop replicas size (k + 1) total rest

def waterLevel (capacities : List Nat) (replicas : Nat) : WaterLevel :=
  if capacities.isEmpty || replicas == 0 then {}
  else
    let replicas := min replicas capacities.length
    waterLoop replicas capacities.length 0 0 (capacities.mergeSort (· ≤ ·))

def maxLogicalCapacity (capacities : List Nat) (replicas : Nat) : Nat :=
  let level := waterLevel capacities replicas
  if level.numerator = 0 then 0
  else
    let value := level.numerator / level.denominator
    if maxU64 < value then maxU64 else value

/-- One more slot for the entity, unless enough are assigned or it has them all. -/
def raiseQuota (required : Nat) (state : List Nat × Nat) (index : Nat) : List Nat × Nat :=
  if state.2 < required ∧ state.1.getD index 0 < placementShards then
    (state.1.set index (state.1.getD index 0 + 1), state.2 + 1)
  else state

/-- The slots of an entity before the correction, and what flooring left over.
The product is taken in 128 bits, the quotient kept in 64. -/
def baseQuota (level : WaterLevel) (capacity : Nat) : Nat × Nat :=
  let scaledCapacity := capacity * level.denominator
  if level.numerator ≤ scaledCapacity then (placementShards, 0)
  else
    let exactNumerator := scaledCapacity * placementShards % 2 ^ 128
    (exactNumerator / level.numerator % 2 ^ 64, exactNumerator % level.numerator)

/-- Greater remainders first, then the order of the entities. -/
def fractionBefore (x y : Nat × Nat) : Bool :=
  if x.2 ≠ y.2 then decide (y.2 < x.2) else decide (x.1 ≤ y.1)

def shardQuotas (capacities : List Nat) (replicas : Nat) : List Nat :=
  let n := capacities.length
  if n = 0 ∨ replicas = 0 then List.replicate n 0
  else
    let replicas := min replicas n
    let required := replicas * placementShards
    let level := waterLevel capacities replicas
    if level.numerator = 0 then
      -- No weighted placement exists: spread evenly.
      (List.range n).map fun i => required / n + if i < required % n then 1 else 0
    else
      let bases := capacities.map (baseQuota level)
      let quota := bases.map Prod.fst
      let fractions := (bases.zipIdx.map fun (base, index) => (index, base.2)).mergeSort
        fractionBefore
      let corrected := (fractions.map Prod.fst).foldl (raiseQuota required) (quota, quota.sum)
      ((List.range n).foldl (raiseQuota required) corrected).1

def shardFor (sha256 : ByteString → Hash256) (key : ByteString) : Nat :=
  let bytes := if 4 ≤ key.length then key else sha256 key
  (bytes.getD 0 0 * 2 ^ 24 + bytes.getD 1 0 * 2 ^ 16 + bytes.getD 2 0 * 2 ^ 8 + bytes.getD 3 0) %
    placementShards

def shardKey (sha256 : ByteString → Hash256) (key : ByteString) : ByteString :=
  let shard := shardFor sha256 key
  [shard / 2 ^ 24, shard / 2 ^ 16 % 256, shard / 2 ^ 8 % 256, shard % 256]

def visitedEntities (shard : Nat) (capacities : List Nat) (replicas : Nat) : List Nat :=
  let replicas := min replicas capacities.length
  sampleFrom placementShards replicas shard 0 0 (shardQuotas capacities replicas)

def fillSample (count replicas : Nat) (selected : List Nat) : List Nat :=
  (List.range count).foldl (fun selected i =>
    if selected.length < replicas ∧ i ∉ selected then selected ++ [i] else selected) selected

def shardSample (shard : Nat) (capacities : List Nat) (replicas : Nat) : List Nat :=
  if capacities.isEmpty || replicas == 0 then []
  else
    fillSample capacities.length (min replicas capacities.length)
      (visitedEntities shard capacities replicas)

def systematicShardSample (sha256 : ByteString → Hash256) (key : ByteString)
    (capacities : List Nat) (replicas : Nat) : List Nat :=
  shardSample (shardFor sha256 key) capacities replicas

def hexDigit (d : Nat) : Nat := if d < 10 then 48 + d else 87 + d

/-- `to_string` of an id: thirty-two hexadecimal digits. -/
def idText (id : NodeId) : ByteString :=
  let digits := Nat.digits 16 id
  ((digits ++ List.replicate (32 - digits.length) 0).map hexDigit).reverse

structure CapacityEntity where
  stableId : ByteString
  capacity : Nat := 0
  nodes : List NodeInfo := []
deriving DecidableEq, Repr

/-- Stops at the greatest 64-bit number. -/
def saturatedAdd (a b : Nat) : Nat := if maxU64 < a + b then maxU64 else a + b

/-- The failure domain of a node; a node that names none is one of its own. -/
def domain (node : NodeInfo) : ByteString :=
  if node.failureDomain.isEmpty then bytes "node:" ++ idText node.id
  else bytes "domain:" ++ node.failureDomain

def joinGroup (groups : List CapacityEntity) (node : NodeInfo) : List CapacityEntity :=
  if groups.any (·.stableId == domain node) then
    groups.map fun group =>
      if group.stableId = domain node then
        { group with
          capacity := saturatedAdd group.capacity node.capacity
          nodes := group.nodes ++ [node] }
      else group
  else groups ++ [⟨domain node, node.capacity, [node]⟩]

def failureDomains (nodes : List NodeInfo) : List CapacityEntity :=
  ((nodes.foldl joinGroup []).mergeSort (·.stableId ≤ ·.stableId)).map fun group =>
    { group with nodes := group.nodes.mergeSort (·.id ≤ ·.id) }

def capacitiesOf (entities : List CapacityEntity) : List Nat := entities.map (·.capacity)

def chooseWithinGroup (sha256 : ByteString → Hash256) (key : ByteString)
    (group : CapacityEntity) : Option NodeInfo :=
  if group.nodes.length = 1 then group.nodes.head?
  else
    let inner := sha256 (key ++ group.stableId)
    let picked := systematicShardSample sha256 inner (group.nodes.map (·.capacity)) 1
    group.nodes[picked.headD 0]?

/-- Nodes by descending score, the greater id first among equals. -/
def scoredBefore {σ : Type} [LinearOrder σ] (score : NodeId → σ) (a b : NodeInfo) : Bool :=
  if score a.id ≠ score b.id then decide (score b.id < score a.id) else decide (b.id ≤ a.id)

/-- The domain `rendezvous_nodes` tells nodes apart by. -/
def rendezvousDomain (node : NodeInfo) : ByteString :=
  if node.failureDomain.isEmpty then idText node.id else node.failureDomain

/-- The first pass: one node for each domain, in order. -/
def spreadPass (count : Nat) (out : List NodeInfo) (domains : List ByteString) :
    List NodeInfo → List NodeInfo
  | [] => out
  | node :: rest =>
    if out.length = count then out
    else if rendezvousDomain node ∈ domains then spreadPass count out domains rest
    else spreadPass count (out ++ [node]) (rendezvousDomain node :: domains) rest

/-- The second pass: the nodes not chosen yet, in order. -/
def fillPass (count : Nat) (out : List NodeInfo) : List NodeInfo → List NodeInfo
  | [] => out
  | node :: rest =>
    if out.length = count then out
    else if node.id ∈ out.map (·.id) then fillPass count out rest
    else fillPass count (out ++ [node]) rest

/-- `score key id` is the digest of the key and the id. -/
def rendezvousNodes {σ : Type} [LinearOrder σ] (score : ByteString → NodeId → σ)
    (key : ByteString) (nodes : List NodeInfo) (count : Nat) : List NodeInfo :=
  let scored := nodes.mergeSort (scoredBefore (score key))
  let count := min count scored.length
  fillPass count (spreadPass count [] [] scored) scored

/-- Nodes by ascending fallback score, the lesser id first among equals. -/
def fallbackBefore {σ : Type} [LinearOrder σ] (score : NodeInfo → σ) (a b : NodeInfo) : Bool :=
  if score a ≠ score b then decide (score a < score b) else decide (a.id ≤ b.id)

def unchosen (nodes preferred : List NodeInfo) : List NodeInfo :=
  nodes.filter fun node => decide (node.id ∉ preferred.map (·.id))

/-- A node joins those preferred unless its id is among them. -/
def prefer (preferred : List NodeInfo) (node : NodeInfo) : List NodeInfo :=
  if node.id ∈ preferred.map (·.id) then preferred else preferred ++ [node]

/-- One node of each sampled domain. -/
def preferredOfDomains (sha256 : ByteString → Hash256) (key : ByteString)
    (groups : List CapacityEntity) (diverse : Nat) : List NodeInfo :=
  ((systematicShardSample sha256 key (capacitiesOf groups) diverse).filterMap fun index =>
    groups[index]?.bind (chooseWithinGroup sha256 key)).foldl prefer []

/-- Fewer domains than replicas: the remaining slots go to unused nodes by capacity. -/
def preferredExtra (sha256 : ByteString → Hash256) (key : ByteString) (nodes : List NodeInfo)
    (count : Nat) (preferred : List NodeInfo) : List NodeInfo :=
  if preferred.length < count then
    let remaining := (unchosen nodes preferred).mergeSort (·.id ≤ ·.id)
    let extraKey := sha256 (key ++ bytes "macha/data-extra-domain/v7")
    ((systematicShardSample sha256 extraKey (remaining.map (·.capacity))
      (count - preferred.length)).filterMap fun index => remaining[index]?).foldl prefer preferred
  else preferred

/-- `fallbackScore key node` is the weighted score of the node. -/
def capacityPlacementNodes {σ : Type} [LinearOrder σ] (sha256 : ByteString → Hash256)
    (fallbackScore : ByteString → NodeInfo → σ) (key : ByteString) (nodes : List NodeInfo)
    (count : Nat) : List NodeInfo :=
  if nodes.isEmpty || count == 0 then []
  else
    let count := min count nodes.length
    if count = 1 then nodes.mergeSort (fallbackBefore (fallbackScore (shardKey sha256 key)))
    else
      let groups := failureDomains nodes
      let diverse := min count groups.length
      let preferred := preferredExtra sha256 key nodes count
        (preferredOfDomains sha256 key groups diverse)
      preferred ++ (unchosen nodes preferred).mergeSort (fallbackBefore (fallbackScore key))

end Macha.Placement
