import Mathlib.Data.List.Sort
import Mathlib.Logic.Relation
import Img2Web.Container.Dispenser

/-!
The load balancing policies, and the query plans that they make. A host stands
for its address, and `dcOf` is its data center, which is known and does not
change. A plan is asked for the next host whenever the request needs one;
meanwhile hosts go up and down, and the policy is told of it. The indices do
not wrap.
-/

namespace Img2Web.Driver

inductive HostDistance where
  | localHost
  | remoteHost
  | ignored
  deriving DecidableEq

/-- `LOCAL_QUORUM` and `LOCAL_ONE`. -/
def isDcLocal (consistency : Nat) : Bool := consistency = 0x06 ∨ consistency = 0x0A

section Hosts

variable {η : Type} [DecidableEq η]

def addHost (hosts : List η) (host : η) : List η :=
  if host ∈ hosts then hosts else hosts ++ [host]

def removeHost (hosts : List η) (host : η) : List η := hosts.erase host

end Hosts

/-- `remoteDcs` has the keys of `per_remote_dc_live_hosts_`, in their order. -/
structure DCAwarePolicy (η δ : Type) where
  localDc : Option δ
  usedHostsPerRemoteDc : Nat
  skipRemoteDcsForLocalCl : Bool
  localDcLiveHosts : List η
  remoteDcs : List δ
  remoteHosts : δ → List η
  index : Nat

/-- `hosts` are those of the local data center, and later of a remote one.
`remoteDcs` is none until the local hosts are used up. -/
structure DCAwareQueryPlan (η δ : Type) where
  cl : Nat
  hosts : List η
  remoteDcs : Option (List δ)
  localRemaining : Nat
  remoteRemaining : Nat
  index : Nat

namespace DCAwarePolicy

variable {η δ : Type}

def new (localDc : Option δ) (usedHostsPerRemoteDc : Nat) (skipRemoteDcsForLocalCl : Bool) :
    DCAwarePolicy η δ :=
  ⟨localDc, usedHostsPerRemoteDc, skipRemoteDcsForLocalCl, [], [], fun _ => [], 0⟩

/-- The plan for a request of this consistency. -/
def newQueryPlan (p : DCAwarePolicy η δ) (cl : Nat) : DCAwareQueryPlan η δ × DCAwarePolicy η δ :=
  (⟨cl, p.localDcLiveHosts, none, p.localDcLiveHosts.length, 0, p.index⟩,
    {p with index := p.index + 1})

variable [DecidableEq η] [LinearOrder δ]

def addHostToDc (p : DCAwarePolicy η δ) (dc : δ) (host : η) : DCAwarePolicy η δ :=
  {p with
    remoteDcs := if dc ∈ p.remoteDcs then p.remoteDcs else p.remoteDcs.orderedInsert (· ≤ ·) dc
    remoteHosts := Function.update p.remoteHosts dc (addHost (p.remoteHosts dc) host)}

def removeHostFromDc (p : DCAwarePolicy η δ) (dc : δ) (host : η) : DCAwarePolicy η δ :=
  {p with remoteHosts := Function.update p.remoteHosts dc (removeHost (p.remoteHosts dc) host)}

variable (dcOf : η → δ)

def distance (p : DCAwarePolicy η δ) (host : η) : HostDistance :=
  if p.localDc = none ∨ p.localDc = some (dcOf host) then .localHost
  else if host ∈ (p.remoteHosts (dcOf host)).take p.usedHostsPerRemoteDc then .remoteHost
  else .ignored

/-- The first host decides what the local data center is, if nothing else did. -/
def onAdd (p : DCAwarePolicy η δ) (host : η) : DCAwarePolicy η δ :=
  let p := {p with localDc := some (p.localDc.getD (dcOf host))}
  if p.localDc = some (dcOf host) then
    {p with localDcLiveHosts := p.localDcLiveHosts ++ [host]}
  else p.addHostToDc (dcOf host) host

def onRemove (p : DCAwarePolicy η δ) (host : η) : DCAwarePolicy η δ :=
  if p.localDc = some (dcOf host) then
    {p with localDcLiveHosts := removeHost p.localDcLiveHosts host}
  else p.removeHostFromDc (dcOf host) host

end DCAwarePolicy

/-- What the session tells its policy. -/
inductive HostEvent (η : Type) where
  | add (host : η)
  | remove (host : η)
  | up (host : η)
  | down (host : η)

namespace DCAwarePolicy

variable {η δ : Type} [DecidableEq η] [LinearOrder δ] (dcOf : η → δ)

def told (p : DCAwarePolicy η δ) : HostEvent η → DCAwarePolicy η δ
  | .add host | .up host => p.onAdd dcOf host
  | .remove host | .down host => p.onRemove dcOf host

/-- The session tells of a host that was added or is up only when the policy
does not have it: it was not up before. -/
def News (p : DCAwarePolicy η δ) : HostEvent η → Prop
  | .add host | .up host => host ∉ p.localDcLiveHosts
  | .remove _ | .down _ => True

instance (p : DCAwarePolicy η δ) : (event : HostEvent η) → Decidable (p.News event)
  | .add host => inferInstanceAs (Decidable (host ∉ p.localDcLiveHosts))
  | .up host => inferInstanceAs (Decidable (host ∉ p.localDcLiveHosts))
  | .remove _ => inferInstanceAs (Decidable True)
  | .down _ => inferInstanceAs (Decidable True)

/-- The policies there can be. -/
inductive Reachable (localDc : Option δ) (used : Nat) (skip : Bool) : DCAwarePolicy η δ → Prop where
  | new : Reachable localDc used skip (.new localDc used skip)
  | told {p : DCAwarePolicy η δ} (event : HostEvent η) : Reachable localDc used skip p →
      p.News event → Reachable localDc used skip (p.told dcOf event)
  | planned {p : DCAwarePolicy η δ} (cl : Nat) : Reachable localDc used skip p →
      Reachable localDc used skip (p.newQueryPlan cl).2

end DCAwarePolicy

/-- What happens while a request goes through its plan. -/
inductive PlanEvent (η : Type) where
  | told (event : HostEvent η)
  | planned (cl : Nat)
  | next (isUp : η → Bool)

/-- The calls of `compute_next`, each with the policy and the state of the hosts
at that time. -/
def DCAwarePolicy.calls {η δ : Type} [DecidableEq η] [LinearOrder δ] (dcOf : η → δ) :
    DCAwarePolicy η δ → List (PlanEvent η) → List (DCAwarePolicy η δ × (η → Bool))
  | _, [] => []
  | p, .told event :: events => calls dcOf (p.told dcOf event) events
  | p, .planned cl :: events => calls dcOf (p.newQueryPlan cl).2 events
  | p, .next isUp :: events => (p, isUp) :: calls dcOf p events

namespace DCAwareQueryPlan

variable {η δ : Type}

/-- The loop over the remote data centers: the hosts that are left of this one,
then those of the next. -/
def nextRemote (p : DCAwarePolicy η δ) (isUp : η → Bool) :
    List δ → Rotation η → Option η × Rotation η × List δ
  | [], ring => ((ring.next isUp).1, (ring.next isUp).2, [])
  | dc :: dcs, ring =>
      match ring.next isUp with
      | (some host, ring) => (some host, ring, dc :: dcs)
      | (none, ring) =>
          nextRemote p isUp dcs ⟨p.remoteHosts dc, ring.index,
            min (p.remoteHosts dc).length p.usedHostsPerRemoteDc⟩

def localRing (plan : DCAwareQueryPlan η δ) : Rotation η :=
  ⟨plan.hosts, plan.index, plan.localRemaining⟩

def remoteRing (plan : DCAwareQueryPlan η δ) : Rotation η :=
  ⟨plan.hosts, plan.index, plan.remoteRemaining⟩

/-- `compute_next`, with the policy and the state of the hosts as they are at
the call. -/
def computeNext (at' : DCAwarePolicy η δ × (η → Bool)) (plan : DCAwareQueryPlan η δ) :
    Option η × DCAwareQueryPlan η δ :=
  match plan.localRing.next at'.2 with
  | (some host, ring) =>
      (some host, {plan with index := ring.index, localRemaining := ring.remaining})
  | (none, ring) =>
      let plan := {plan with index := ring.index, localRemaining := ring.remaining}
      if at'.1.skipRemoteDcsForLocalCl && isDcLocal plan.cl then (none, plan)
      else
        match nextRemote at'.1 at'.2 (plan.remoteDcs.getD at'.1.remoteDcs) plan.remoteRing with
        | (given, ring, dcs) =>
            (given, {plan with
              hosts := ring.items
              index := ring.index
              remoteRemaining := ring.remaining
              remoteDcs := some dcs})

end DCAwareQueryPlan

/-- `replicas_`, with the place in them. -/
structure TokenAwareQueryPlan (σ η : Type) where
  childPlan : σ
  replicas : Rotation η

namespace TokenAwareQueryPlan

variable {σ ε η : Type} [DecidableEq η]

/-- `new_query_plan`, where there are replicas. -/
def new (childPlan : σ) (replicas : List η) (index : Nat) : TokenAwareQueryPlan σ η :=
  ⟨childPlan, .new replicas index⟩

/-- `compute_next`, over the plan of any child policy. `size` bounds how many
hosts the child still has. -/
def computeNext (childNext : ε → σ → Option η × σ) (isUp isLocal : ε → η → Bool)
    (size : ε → σ → Nat) (at' : ε) (plan : TokenAwareQueryPlan σ η) :
    Option η × TokenAwareQueryPlan σ η :=
  match plan.replicas.next fun host => isUp at' host && isLocal at' host with
  | (some host, replicas) => (some host, ⟨plan.childPlan, replicas⟩)
  | (none, replicas) =>
      let rest := Dispenser.nextExcept childNext
        (fun host => replicas.items.contains host && isLocal at' host) at'
        (size at' plan.childPlan + 1) plan.childPlan
      (rest.1, ⟨rest.2, replicas⟩)

end TokenAwareQueryPlan

end Img2Web.Driver
