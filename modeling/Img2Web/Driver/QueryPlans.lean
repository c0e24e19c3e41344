import Img2Web.Driver.LoadBalancing

/-!
What a request can rely on that asks its query plan for one host after another,
whatever becomes of the hosts meanwhile.
-/

namespace Img2Web.Driver

theorem nodup_addHost {η : Type} [DecidableEq η] {hosts : List η} {host : η} (h : hosts.Nodup) :
    (addHost hosts host).Nodup := by
  rw [addHost]
  split
  case isTrue => exact h
  case isFalse hnew => exact h.append (List.nodup_singleton host) (by simpa using hnew)

theorem mem_addHost {η : Type} [DecidableEq η] {hosts : List η} {host a : η}
    (ha : a ∈ addHost hosts host) : a ∈ hosts ∨ a = host := by
  rw [addHost] at ha
  split at ha
  · exact Or.inl ha
  · simpa using ha

namespace DCAwarePolicy

variable {η δ : Type} [DecidableEq η] [LinearOrder δ] {dcOf : η → δ} {localDc : δ}
  {p : DCAwarePolicy η δ}

/-- What holds of the remote hosts once the local data center is known. -/
structure Sound (dcOf : η → δ) (localDc : δ) (p : DCAwarePolicy η δ) : Prop where
  known : p.localDc = some localDc
  dcs : p.remoteDcs.Nodup
  apart : localDc ∉ p.remoteDcs
  once : ∀ dc, (p.remoteHosts dc).Nodup
  within : ∀ dc, ∀ host ∈ p.remoteHosts dc, dcOf host = dc

theorem Sound.addHostToDc {host : η} (h : p.Sound dcOf localDc) (hhost : dcOf host ≠ localDc) :
    (p.addHostToDc (dcOf host) host).Sound dcOf localDc where
  known := h.known
  dcs := by
    rw [DCAwarePolicy.addHostToDc]
    dsimp only
    split
    · exact h.dcs
    · rename_i hnew
      exact (List.perm_orderedInsert (· ≤ ·) _ _).nodup_iff.mpr (List.nodup_cons.mpr ⟨hnew, h.dcs⟩)
  apart hmem := by
    rw [DCAwarePolicy.addHostToDc] at hmem
    dsimp only at hmem
    split at hmem
    · exact h.apart hmem
    · rcases (List.mem_orderedInsert (· ≤ ·)).mp hmem with heq | hmem
      · exact hhost heq.symm
      · exact h.apart hmem
  once dc := by
    rw [DCAwarePolicy.addHostToDc]
    dsimp only
    rcases eq_or_ne dc (dcOf host) with rfl | hne
    · rw [Function.update_self]
      exact nodup_addHost (h.once _)
    · rw [Function.update_of_ne hne]
      exact h.once dc
  within dc a ha := by
    rw [DCAwarePolicy.addHostToDc] at ha
    dsimp only at ha
    rcases eq_or_ne dc (dcOf host) with rfl | hne
    · rw [Function.update_self] at ha
      rcases mem_addHost ha with hold | rfl
      · exact h.within _ a hold
      · rfl
    · rw [Function.update_of_ne hne] at ha
      exact h.within dc a ha

theorem Sound.removeHostFromDc {dc : δ} {host : η} (h : p.Sound dcOf localDc) :
    (p.removeHostFromDc dc host).Sound dcOf localDc where
  known := h.known
  dcs := h.dcs
  apart := h.apart
  once d := by
    rw [DCAwarePolicy.removeHostFromDc]
    dsimp only
    rcases eq_or_ne d dc with rfl | hne
    · rw [Function.update_self]
      exact (h.once d).erase host
    · rw [Function.update_of_ne hne]
      exact h.once d
  within d a ha := by
    rw [DCAwarePolicy.removeHostFromDc] at ha
    dsimp only at ha
    rcases eq_or_ne d dc with rfl | hne
    · rw [Function.update_self] at ha
      exact h.within d a (List.mem_of_mem_erase ha)
    · rw [Function.update_of_ne hne] at ha
      exact h.within d a ha

omit [DecidableEq η] [LinearOrder δ] in
/-- What is remote stays apart, whatever is in the local data center. -/
theorem Sound.ofLocal {hosts : List η} (h : p.Sound dcOf localDc) :
    {p with localDcLiveHosts := hosts}.Sound dcOf localDc :=
  ⟨h.known, h.dcs, h.apart, h.once, h.within⟩

theorem Sound.onAdd_eq (host : η) (h : p.Sound dcOf localDc) :
    p.onAdd dcOf host = if dcOf host = localDc
      then {p with localDcLiveHosts := p.localDcLiveHosts ++ [host]}
      else p.addHostToDc (dcOf host) host := by
  obtain ⟨_, used, skip, hosts, dcs, remote, index⟩ := p
  obtain rfl : _ = some localDc := h.known
  simp only [onAdd, Option.getD_some, Option.some.injEq, eq_comm]

theorem Sound.onRemove_eq (host : η) (h : p.Sound dcOf localDc) :
    p.onRemove dcOf host = if dcOf host = localDc
      then {p with localDcLiveHosts := removeHost p.localDcLiveHosts host}
      else p.removeHostFromDc (dcOf host) host := by
  rw [onRemove, h.known]
  simp only [Option.some.injEq, eq_comm]

theorem Sound.onAdd (host : η) (h : p.Sound dcOf localDc) :
    (p.onAdd dcOf host).Sound dcOf localDc := by
  rw [h.onAdd_eq host]
  split
  case isTrue => exact h.ofLocal
  case isFalse hhost => exact h.addHostToDc hhost

theorem Sound.onRemove (host : η) (h : p.Sound dcOf localDc) :
    (p.onRemove dcOf host).Sound dcOf localDc := by
  rw [h.onRemove_eq host]
  split
  case isTrue => exact h.ofLocal
  case isFalse => exact h.removeHostFromDc

theorem Sound.told (h : p.Sound dcOf localDc) (event : HostEvent η) :
    (p.told dcOf event).Sound dcOf localDc := by
  cases event with
  | add host => exact h.onAdd host
  | up host => exact h.onAdd host
  | remove host => exact h.onRemove host
  | down host => exact h.onRemove host

/-- The hosts of the local data center are there once each. -/
structure Invariant (dcOf : η → δ) (p : DCAwarePolicy η δ) : Prop where
  sound : ∀ dc, p.localDc = some dc → p.Sound dcOf dc
  once : p.localDcLiveHosts.Nodup
  locals : ∀ host ∈ p.localDcLiveHosts, p.localDc = some (dcOf host)
  unknown : p.localDc = none → p.remoteDcs = [] ∧ ∀ dc, p.remoteHosts dc = []

omit [DecidableEq η] [LinearOrder δ] in
theorem Invariant.sound_onAdd (host : η) (h : p.Invariant dcOf) :
    {p with localDc := some (p.localDc.getD (dcOf host))}.Sound dcOf
      (p.localDc.getD (dcOf host)) := by
  cases hlocal : p.localDc with
  | some dc =>
      have hsound := h.sound dc hlocal
      exact ⟨rfl, hsound.dcs, hsound.apart, hsound.once, hsound.within⟩
  | none =>
      obtain ⟨hdcs, hhosts⟩ := h.unknown hlocal
      refine ⟨rfl, ?_, ?_, fun dc => ?_, fun dc a ha => ?_⟩
      · rw [hdcs]
        exact List.nodup_nil
      · rw [hdcs]
        exact List.not_mem_nil
      · change (p.remoteHosts dc).Nodup
        rw [hhosts]
        exact List.nodup_nil
      · change a ∈ p.remoteHosts dc at ha
        rw [hhosts] at ha
        cases ha

theorem Invariant.onAdd {host : η} (h : p.Invariant dcOf) (hnew : host ∉ p.localDcLiveHosts) :
    (p.onAdd dcOf host).Invariant dcOf := by
  have hsound := h.sound_onAdd host
  have hlocals : ∀ a ∈ p.localDcLiveHosts,
      some (p.localDc.getD (dcOf host)) = some (dcOf a) := by
    intro a ha
    rw [h.locals a ha]
    rfl
  have honAdd := hsound.onAdd_eq host
  have hsame : ({p with localDc := some (p.localDc.getD (dcOf host))}).onAdd dcOf host =
      p.onAdd dcOf host := rfl
  rw [hsame] at honAdd
  rw [honAdd]
  split
  case isTrue hhost =>
    refine ⟨fun dc hdc => ?_, ?_, fun a ha => ?_, fun hnone => nomatch hnone⟩
    · obtain rfl := Option.some.inj hdc
      exact hsound.ofLocal
    · exact h.once.append (List.nodup_singleton host) (by simpa using hnew)
    · rcases List.mem_append.mp ha with hold | hlast
      · exact hlocals a hold
      · rw [List.mem_singleton.mp hlast]
        exact (congrArg some hhost).symm
  case isFalse hhost =>
    refine ⟨fun dc hdc => ?_, h.once, hlocals, fun hnone => nomatch hnone⟩
    obtain rfl := Option.some.inj hdc
    exact hsound.addHostToDc hhost

theorem Invariant.onRemove {host : η} (h : p.Invariant dcOf) :
    (p.onRemove dcOf host).Invariant dcOf := by
  cases hlocal : p.localDc with
  | some dc =>
      have hsound := h.sound dc hlocal
      have hremoved := hsound.onRemove host
      rw [hsound.onRemove_eq host] at hremoved ⊢
      split at hremoved
      case isTrue hhost =>
        rw [if_pos hhost]
        refine ⟨fun d hd => ?_, h.once.erase host,
          fun a ha => h.locals a (List.mem_of_mem_erase ha), fun hnone => ?_⟩
        · obtain rfl := Option.some.inj (hlocal.symm.trans hd)
          exact hremoved
        · cases hlocal.symm.trans hnone
      case isFalse hhost =>
        rw [if_neg hhost]
        refine ⟨fun d hd => ?_, h.once, h.locals, fun hnone => ?_⟩
        · obtain rfl := Option.some.inj (hlocal.symm.trans hd)
          exact hremoved
        · cases hlocal.symm.trans hnone
  | none =>
      rw [DCAwarePolicy.onRemove, hlocal, if_neg (by simp)]
      obtain ⟨hdcs, hhosts⟩ := h.unknown hlocal
      refine ⟨fun d hd => ?_, h.once, h.locals, fun _ => ⟨hdcs, fun d => ?_⟩⟩
      · cases hlocal.symm.trans hd
      · rw [DCAwarePolicy.removeHostFromDc]
        dsimp only
        rcases eq_or_ne d (dcOf host) with rfl | hne
        · rw [Function.update_self, hhosts]
          rfl
        · rw [Function.update_of_ne hne]
          exact hhosts d

theorem Reachable.invariant {first : Option δ} {used : Nat} {skip : Bool}
    (h : Reachable dcOf first used skip p) : p.Invariant dcOf := by
  induction h with
  | new =>
      refine ⟨fun dc hdc => ?_, List.nodup_nil, fun _ hhost => (nomatch hhost),
        fun _ => ⟨rfl, fun _ => rfl⟩⟩
      exact ⟨hdc, List.nodup_nil, List.not_mem_nil, fun _ => List.nodup_nil,
        fun _ _ hhost => (nomatch hhost)⟩
  | told event _ hnews ih =>
      cases event with
      | add host => exact ih.onAdd hnews
      | up host => exact ih.onAdd hnews
      | remove host => exact ih.onRemove
      | down host => exact ih.onRemove
  | planned cl _ ih =>
      refine ⟨fun dc hdc => ?_, ih.once, ih.locals, ih.unknown⟩
      have hsound := ih.sound dc hdc
      exact ⟨hdc, hsound.dcs, hsound.apart, hsound.once, hsound.within⟩

end DCAwarePolicy

namespace DCAwareQueryPlan

variable {η δ : Type} {dcOf : η → δ} {localDc : δ} {isUp : η → Bool} {p : DCAwarePolicy η δ}
  {ring : Rotation η} {dcs : List δ} {plan : DCAwareQueryPlan η δ}

/-- The hosts that are left of this remote data center are apart from those of
the data centers to come. -/
structure RemoteValid (dcOf : η → δ) (localDc : δ) (ring : Rotation η) (dcs : List δ) : Prop where
  fits : ring.Fits
  once : ring.ahead.Nodup
  distinct : dcs.Nodup
  apart : localDc ∉ dcs
  here : ∀ host ∈ ring.ahead, dcOf host ≠ localDc ∧ dcOf host ∉ dcs

/-- A remote host that may still be given. -/
def RemoteAhead (dcOf : η → δ) (ring : Rotation η) (dcs : List δ) (host : η) : Prop :=
  host ∈ ring.ahead ∨ dcOf host ∈ dcs

def remoteSize (p : DCAwarePolicy η δ) (ring : Rotation η) (dcs : List δ) : Nat :=
  ring.remaining + (dcs.flatMap p.remoteHosts).length

theorem RemoteValid.not_local {host : η} (h : RemoteValid dcOf localDc ring dcs)
    (hhost : RemoteAhead dcOf ring dcs host) : dcOf host ≠ localDc := by
  rcases hhost with hring | hdcs
  · exact (h.here host hring).1
  · exact fun heq => h.apart (heq ▸ hdcs)

/-- What one call does to the remote part of a plan. -/
abbrev RemoteCall (dcOf : η → δ) (localDc : δ) (p : DCAwarePolicy η δ) (isUp : η → Bool) :
    Rotation η × List δ → Option η → Rotation η × List δ → Prop :=
  Dispenser.Call isUp (fun s => remoteSize p s.1 s.2) (fun s => RemoteValid dcOf localDc s.1 s.2)
    (fun s => RemoteAhead dcOf s.1 s.2) fun _ _ => False

theorem ring_call (p : DCAwarePolicy η δ) (isUp : η → Bool)
    (h : RemoteValid dcOf localDc ring dcs) :
    RemoteCall dcOf localDc p isUp (ring, dcs) (ring.next isUp).1 ((ring.next isUp).2, dcs) := by
  have hpasses := Rotation.next_passes isUp h.fits
  have hfits := Rotation.next_fits isUp h.fits
  have hsubset := hpasses.after_subset
  apply Dispenser.Call.nothing_due
  case hkeeps =>
    exact ⟨hfits, hpasses.nodup h.once, h.distinct, h.apart, fun a ha => h.here a (hsubset ha)⟩
  case hfit =>
    intro host hgiven
    rw [hgiven] at hpasses
    exact hpasses.1
  case hshrinks => exact fun host hhost => hhost.imp_left (@hsubset host)
  case honce =>
    intro host hgiven
    rw [hgiven] at hpasses
    refine ⟨Or.inl hpasses.given_mem, ?_⟩
    rintro (hring | hdcs)
    · exact hpasses.given_notMem h.once hring
    · exact (h.here host hpasses.given_mem).2 hdcs
  case hdecreases =>
    intro host hgiven
    exact Nat.add_lt_add_right (Rotation.next_remaining h.fits hgiven) _

/-- The first hosts that are used of the next remote data center. -/
theorem RemoteValid.enter [DecidableEq η] [LinearOrder δ] {dc : δ} {index used : Nat}
    (h : RemoteValid dcOf localDc ring (dc :: dcs)) (hp : p.Sound dcOf localDc) :
    RemoteValid dcOf localDc
      ⟨p.remoteHosts dc, index, min (p.remoteHosts dc).length used⟩ dcs where
  fits := Nat.min_le_left ..
  once := Rotation.nodup_ahead (hp.once dc)
  distinct := (List.nodup_cons.mp h.distinct).2
  apart hmem := h.apart (List.mem_cons_of_mem _ hmem)
  here host hhost := by
    rw [hp.within dc host (Rotation.ahead_subset hhost)]
    exact ⟨fun heq => h.apart (heq ▸ List.mem_cons_self), (List.nodup_cons.mp h.distinct).1⟩

theorem nextRemote_call [DecidableEq η] [LinearOrder δ] (isUp : η → Bool)
    (hp : p.Sound dcOf localDc) (h : RemoteValid dcOf localDc ring dcs) :
    RemoteCall dcOf localDc p isUp (ring, dcs) (nextRemote p isUp dcs ring).1
      (nextRemote p isUp dcs ring).2 := by
  induction dcs generalizing ring with
  | nil => exact ring_call p isUp h
  | cons dc dcs ih =>
      have hring := ring_call p isUp h
      rw [nextRemote]
      obtain ⟨given, ring', hnext⟩ : ∃ given ring', ring.next isUp = (given, ring') := ⟨_, _, rfl⟩
      rw [hnext] at hring ⊢
      cases given with
      | some host => exact hring
      | none =>
          -- The hosts of this data center are used up.
          have henter : RemoteCall dcOf localDc p isUp (ring, dc :: dcs) none
              (⟨p.remoteHosts dc, ring'.index,
                min (p.remoteHosts dc).length p.usedHostsPerRemoteDc⟩, dcs) := by
            refine .nothing (h.enter hp) ?_ (fun _ _ hdue => hdue) (fun _ hdue => hdue.elim)
              fun _ hdue => hdue
            rintro host (hhere | hlater)
            · refine Or.inr ?_
              rw [hp.within dc host (Rotation.ahead_subset hhere)]
              exact List.mem_cons_self
            · exact Or.inr (List.mem_cons_of_mem _ hlater)
          refine henter.andThen ?_ (ih henter.keeps)
          simp only [remoteSize, List.flatMap_cons, List.length_append]
          omega

/-- The local hosts that are left are there once each; the remote part begins
when none is left. -/
structure Valid (dcOf : η → δ) (localDc : δ) (plan : DCAwareQueryPlan η δ) : Prop where
  fits : plan.localRing.Fits
  once : plan.localRing.ahead.Nodup
  locals : ∀ host ∈ plan.localRing.ahead, dcOf host = localDc
  fresh : plan.remoteDcs = none → plan.remoteRemaining = 0
  remote : ∀ dcs, plan.remoteDcs = some dcs →
    plan.localRemaining = 0 ∧ RemoteValid dcOf localDc plan.remoteRing dcs

def LocalAhead (plan : DCAwareQueryPlan η δ) (host : η) : Prop := host ∈ plan.localRing.ahead

/-- A host that may still be given; which remote hosts there will be is open. -/
def Ahead (dcOf : η → δ) (localDc : δ) (plan : DCAwareQueryPlan η δ) (host : η) : Prop :=
  plan.LocalAhead host ∨ (plan.remoteDcs = none ∧ dcOf host ≠ localDc) ∨
    ∃ dcs, plan.remoteDcs = some dcs ∧ RemoteAhead dcOf plan.remoteRing dcs host

def size (p : DCAwarePolicy η δ) (plan : DCAwareQueryPlan η δ) : Nat :=
  plan.localRemaining + remoteSize p plan.remoteRing (plan.remoteDcs.getD p.remoteDcs)

theorem ahead_of_remaining {items : List η} {index : Nat} :
    (⟨items, index, 0⟩ : Rotation η).ahead = [] := List.take_zero

theorem not_localAhead (hlocal : plan.localRemaining = 0) (host : η) : ¬ plan.LocalAhead host := by
  intro hhost
  rw [LocalAhead, localRing, hlocal, ahead_of_remaining] at hhost
  cases hhost

/-- A local host is given. -/
theorem local_call {host : η} (h : plan.Valid dcOf localDc)
    (hnext : plan.localRing.next isUp = (some host, ring)) :
    Dispenser.Call isUp (size p) (Valid dcOf localDc) (Ahead dcOf localDc) LocalAhead plan
      (some host) {plan with index := ring.index, localRemaining := ring.remaining} := by
  have hpasses := Rotation.next_passes isUp h.fits
  have hfits := Rotation.next_fits isUp h.fits
  have hitems := Rotation.next_items isUp h.fits
  rw [hnext] at hpasses hfits hitems
  dsimp only at hpasses hfits hitems
  have hring : ({plan with index := ring.index, localRemaining := ring.remaining}).localRing =
      ring := by
    rw [localRing, ← show ring.items = plan.hosts from hitems]
  have hremote : plan.remoteDcs = none := by
    refine Option.eq_none_iff_forall_ne_some.mpr fun dcs hdcs => ?_
    exact not_localAhead (h.remote dcs hdcs).1 host hpasses.given_mem
  have hahead : ∀ x, ({plan with index := ring.index, localRemaining := ring.remaining}).Ahead
      dcOf localDc x ↔ x ∈ ring.ahead ∨ dcOf x ≠ localDc := by
    intro x
    rw [Ahead, LocalAhead, hring]
    change x ∈ ring.ahead ∨ (plan.remoteDcs = none ∧ _) ∨ (∃ dcs, plan.remoteDcs = some dcs ∧ _) ↔ _
    simp [hremote]
  have hahead' : ∀ x, plan.Ahead dcOf localDc x ↔ x ∈ plan.localRing.ahead ∨
      dcOf x ≠ localDc := by
    intro x
    simp [Ahead, LocalAhead, hremote]
  have hsubset := hpasses.after_subset
  constructor
  case keeps =>
    refine ⟨hring ▸ hfits, hring ▸ hpasses.nodup h.once, fun x hx => ?_, h.fresh,
      fun dcs hdcs => ?_⟩
    · rw [hring] at hx
      exact h.locals x (hsubset hx)
    · cases hremote.symm.trans hdcs
  case fit =>
    rintro x ⟨⟩
    exact hpasses.1
  case shrinks =>
    intro x hx
    exact (hahead' x).mpr (((hahead x).mp hx).imp_left (@hsubset x))
  case once =>
    rintro x ⟨⟩
    refine ⟨Or.inl hpasses.given_mem, fun hx => ?_⟩
    rcases (hahead host).mp hx with hstill | hother
    · exact hpasses.given_notMem h.once hstill
    · exact hother (h.locals host hpasses.given_mem)
  case decreases =>
    intro x _
    have hless := Rotation.next_remaining h.fits (congrArg Prod.fst hnext)
    rw [hnext] at hless
    exact Nat.add_lt_add_right hless _
  case still_due =>
    intro x hx hdue
    rw [LocalAhead, hring]
    exact ((hahead x).mp hx).resolve_right fun hother => hother (h.locals x hdue)
  case due_of =>
    intro x hx
    rw [LocalAhead, hring] at hx
    exact hsubset hx
  case kept =>
    intro x hdue
    rw [LocalAhead, hring]
    exact hpasses.kept hdue
  case first =>
    rintro x ⟨⟩
    exact Or.inl hpasses.given_mem
  case ended => exact fun hnone => nomatch hnone

/-- No local host is given, so none is left. -/
theorem leave_local (h : plan.Valid dcOf localDc)
    (hnext : plan.localRing.next isUp = (none, ring)) :
    ring.remaining = 0 ∧
      Dispenser.Call isUp (size p) (Valid dcOf localDc) (Ahead dcOf localDc) LocalAhead plan none
        {plan with index := ring.index, localRemaining := ring.remaining} ∧
      size p {plan with index := ring.index, localRemaining := ring.remaining} ≤ size p plan := by
  have hpasses := Rotation.next_passes isUp h.fits
  have hfits := Rotation.next_fits isUp h.fits
  rw [hnext] at hpasses hfits
  have hremaining := Rotation.remaining_of_ahead hfits hpasses.1
  rw [hremaining]
  -- Where the remote part has begun, nothing changes.
  have hsame : ∀ dcs, plan.remoteDcs = some dcs →
      {plan with index := ring.index, localRemaining := 0} = plan := by
    intro dcs hdcs
    have hlocal := (h.remote dcs hdcs).1
    have hring : plan.localRing.next isUp = (none, ⟨plan.hosts, plan.index, 0⟩) := by
      rw [localRing, hlocal]
      rfl
    rw [hring] at hnext
    obtain ⟨-, rfl⟩ := Prod.mk.inj hnext
    rw [← hlocal]
  have hnone : ∀ x, ¬ ({plan with index := ring.index, localRemaining := 0}).LocalAhead x :=
    not_localAhead rfl
  refine ⟨rfl, ?_, ?_⟩
  · apply Dispenser.Call.nothing
    case hkeeps =>
      refine ⟨Nat.zero_le _, ?_, fun x hx => (hnone x hx).elim, h.fresh, fun dcs hdcs => ?_⟩
      · rw [localRing, ahead_of_remaining]
        exact List.nodup_nil
      · rw [hsame dcs hdcs]
        exact h.remote dcs hdcs
    case hshrinks =>
      rintro x (hlocal | hfresh | ⟨dcs, hdcs, hremote⟩)
      · exact (hnone x hlocal).elim
      · exact Or.inr (Or.inl hfresh)
      · rw [hsame dcs hdcs] at hremote
        exact Or.inr (Or.inr ⟨dcs, hdcs, hremote⟩)
    case hlost =>
      rintro x (hlocal | ⟨-, hother⟩ | ⟨dcs, hdcs, -⟩) hdue
      · exact hnone x hlocal
      · exact hother (h.locals x hdue)
      · exact not_localAhead (h.remote dcs hdcs).1 x hdue
    case hunfit => exact hpasses.2
    case hended => exact hnone
  · simp only [size, remoteRing, remoteSize]
    omega

/-- The remote part gives what `nextRemote` gives. -/
theorem remote_call [DecidableEq η] [LinearOrder δ] {given : Option η}
    (hp : p.Sound dcOf localDc) (h : plan.Valid dcOf localDc) (hlocal : plan.localRemaining = 0)
    (hnext : nextRemote p isUp (plan.remoteDcs.getD p.remoteDcs) plan.remoteRing =
      (given, ring, dcs)) :
    Dispenser.Call isUp (size p) (Valid dcOf localDc) (Ahead dcOf localDc) LocalAhead plan given
      {plan with
        hosts := ring.items
        index := ring.index
        remoteRemaining := ring.remaining
        remoteDcs := some dcs} := by
  have hvalid : RemoteValid dcOf localDc plan.remoteRing (plan.remoteDcs.getD p.remoteDcs) := by
    cases hdcs : plan.remoteDcs with
    | some dcs => exact (h.remote dcs hdcs).2
    | none =>
        have hahead : plan.remoteRing.ahead = [] := by
          rw [remoteRing, h.fresh hdcs, ahead_of_remaining]
        refine ⟨?_, ?_, hp.dcs, hp.apart, fun host hhost => ?_⟩
        · rw [remoteRing, h.fresh hdcs]
          exact Nat.zero_le _
        · rw [hahead]
          exact List.nodup_nil
        · rw [hahead] at hhost
          cases hhost
  have hcall := nextRemote_call isUp hp hvalid
  rw [hnext] at hcall
  have hnone : ∀ x, ¬ plan.LocalAhead x := not_localAhead hlocal
  have hnone' : ∀ x, ¬ ({plan with
      hosts := ring.items
      index := ring.index
      remoteRemaining := ring.remaining
      remoteDcs := some dcs}).LocalAhead x := not_localAhead hlocal
  have hahead : ∀ x, RemoteAhead dcOf plan.remoteRing (plan.remoteDcs.getD p.remoteDcs) x →
      plan.Ahead dcOf localDc x := by
    intro x hx
    cases hdcs : plan.remoteDcs with
    | some dcs =>
        rw [hdcs] at hx
        exact Or.inr (Or.inr ⟨dcs, hdcs, hx⟩)
    | none => exact Or.inr (Or.inl ⟨hdcs, hvalid.not_local hx⟩)
  have hahead' : ∀ x, ({plan with
      hosts := ring.items
      index := ring.index
      remoteRemaining := ring.remaining
      remoteDcs := some dcs}).Ahead dcOf localDc x → RemoteAhead dcOf ring dcs x := by
    rintro x (hx | ⟨hx, -⟩ | ⟨dcs', hdcs', hx⟩)
    · exact (hnone' x hx).elim
    · cases hx
    · obtain rfl := Option.some.inj hdcs'
      exact hx
  constructor
  case keeps =>
    refine ⟨?_, ?_, fun x hx => (hnone' x hx).elim, fun hx => (nomatch hx), fun dcs' hdcs' => ?_⟩
    · rw [localRing, hlocal]
      exact Nat.zero_le _
    · rw [localRing, hlocal, ahead_of_remaining]
      exact List.nodup_nil
    · obtain rfl := Option.some.inj hdcs'
      exact ⟨hlocal, hcall.keeps⟩
  case fit => exact hcall.fit
  case shrinks => exact fun x hx => hahead x (hcall.shrinks x (hahead' x hx))
  case once =>
    intro x hx
    obtain ⟨hbefore, hafter⟩ := hcall.once x hx
    exact ⟨hahead x hbefore, fun hstill => hafter (hahead' x hstill)⟩
  case decreases =>
    intro x hx
    exact Nat.add_lt_add_left (hcall.decreases x hx) _
  case still_due => exact fun x _ hdue => (hnone x hdue).elim
  case due_of => exact fun x hx => (hnone' x hx).elim
  case kept => exact fun x hdue => (hnone x hdue).elim
  case first => exact fun _ _ => Or.inr hnone'
  case ended => exact fun _ => hnone'

/-- Whatever becomes of the hosts between two calls, a plan only hands out what
it has not handed out, local hosts first. -/
theorem dispenses [DecidableEq η] [LinearOrder δ] :
    Dispenser.Dispenses (@computeNext η δ)
      (fun at' => at'.1.Sound dcOf localDc) (fun at' => at'.2) (fun at' => size at'.1)
      (Valid dcOf localDc) (Ahead dcOf localDc) LocalAhead where
  call at' plan hp h := by
    rw [computeNext]
    obtain ⟨given, ring, hnext⟩ : ∃ given ring, plan.localRing.next at'.2 = (given, ring) :=
      ⟨_, _, rfl⟩
    rw [hnext]
    cases given with
    | some host => exact local_call h hnext
    | none =>
        obtain ⟨hremaining, hleave, hsize⟩ := leave_local (p := at'.1) h hnext
        dsimp only
        split
        case isTrue => exact hleave
        case isFalse => exact hleave.andThen hsize (remote_call hp hleave.keeps hremaining rfl)
  due_ahead _ _ _ := Or.inl

/-- A new plan has every host of the local data center ahead, once. -/
theorem new_valid (h : p.Invariant dcOf) (hlocal : p.localDc = some localDc) (cl : Nat) :
    (p.newQueryPlan cl).1.Valid dcOf localDc where
  fits := Rotation.new_fits ..
  once := Rotation.nodup_ahead h.once
  locals host hhost := by
    have hsome := h.locals host (Rotation.ahead_subset hhost)
    exact (Option.some.inj (hlocal.symm.trans hsome)).symm
  fresh _ := rfl
  remote _ hdcs := nomatch hdcs

theorem localAhead_new (cl : Nat) (host : η) :
    (p.newQueryPlan cl).1.LocalAhead host ↔ host ∈ p.localDcLiveHosts := by
  have hring : (p.newQueryPlan cl).1.localRing = .new p.localDcLiveHosts p.index := rfl
  rw [LocalAhead, hring, Rotation.ahead_new, List.mem_rotate]

/-- What news and other plans preserve holds of the policy at every call. -/
theorem calls_forall [DecidableEq η] [LinearOrder δ] (holds : DCAwarePolicy η δ → Prop)
    (htold : ∀ p event, holds p → holds (p.told dcOf event))
    (hplanned : ∀ p cl, holds p → holds (p.newQueryPlan cl).2) (events : List (PlanEvent η))
    (h : holds p) : ∀ call ∈ p.calls dcOf events, holds call.1 := by
  induction events generalizing p with
  | nil => exact fun _ hcall => nomatch hcall
  | cons event events ih =>
      cases event with
      | told event => exact ih (htold p event h)
      | planned cl => exact ih (hplanned p cl h)
      | next isUp =>
          intro call hcall
          rcases List.mem_cons.mp hcall with rfl | hcall
          · exact h
          · exact ih h call hcall

theorem calls_sound [DecidableEq η] [LinearOrder δ] (events : List (PlanEvent η))
    (h : p.Sound dcOf localDc) : ∀ call ∈ p.calls dcOf events, call.1.Sound dcOf localDc :=
  calls_forall (·.Sound dcOf localDc) (fun _ event h => h.told event)
    (fun _ _ h => ⟨h.known, h.dcs, h.apart, h.once, h.within⟩) events h

/-- No remote host is asked for. -/
def LocalOnly (p : DCAwarePolicy η δ) (cl : Nat) : Prop :=
  (p.skipRemoteDcsForLocalCl && isDcLocal cl) = true ∨ p.usedHostsPerRemoteDc = 0

theorem nextRemote_localOnly (isUp : η → Bool) (dcs : List δ) (ring : Rotation η)
    (hused : p.usedHostsPerRemoteDc = 0) (hring : ring.remaining = 0) :
    (nextRemote p isUp dcs ring).1 = none ∧
      (nextRemote p isUp dcs ring).2.1.remaining = 0 := by
  obtain ⟨items, index, _⟩ := ring
  obtain rfl : _ = 0 := hring
  induction dcs generalizing items index with
  | nil => exact ⟨rfl, rfl⟩
  | cons dc dcs ih =>
      have hnext : (⟨items, index, 0⟩ : Rotation η).next isUp = (none, ⟨items, index, 0⟩) := rfl
      rw [nextRemote, hnext, hused, Nat.min_zero]
      exact ih (p.remoteHosts dc) index

theorem computeNext_localOnly (isUp : η → Bool) (host : η) (h : plan.Valid dcOf localDc)
    (hzero : plan.remoteRemaining = 0) (hlocal : LocalOnly p plan.cl) :
    ((computeNext (p, isUp) plan).1 = some host → plan.LocalAhead host) ∧
      (computeNext (p, isUp) plan).2.remoteRemaining = 0 ∧
      (computeNext (p, isUp) plan).2.cl = plan.cl := by
  rw [computeNext]
  obtain ⟨given, ring, hnext⟩ : ∃ given ring, plan.localRing.next isUp = (given, ring) :=
    ⟨_, _, rfl⟩
  dsimp only
  rw [hnext]
  cases given with
  | some first =>
      refine ⟨?_, hzero, rfl⟩
      rintro ⟨⟩
      have hpasses := Rotation.next_passes isUp h.fits
      rw [hnext] at hpasses
      exact hpasses.given_mem
  | none =>
      dsimp only
      split
      case isTrue => exact ⟨fun hgiven => (nomatch hgiven), hzero, rfl⟩
      case isFalse hskip =>
        have hused := hlocal.resolve_left hskip
        obtain ⟨hnone, hremaining⟩ := nextRemote_localOnly isUp (plan.remoteDcs.getD p.remoteDcs)
          ⟨plan.hosts, ring.index, plan.remoteRemaining⟩ hused hzero
        refine ⟨fun hgiven => ?_, hremaining, rfl⟩
        exact nomatch hnone.symm.trans hgiven

theorem told_localOnly [DecidableEq η] [LinearOrder δ] {cl : Nat} (h : LocalOnly p cl)
    (event : HostEvent η) : LocalOnly (p.told dcOf event) cl := by
  have hadd : ∀ host, LocalOnly (p.onAdd dcOf host) cl := by
    intro host
    rw [DCAwarePolicy.onAdd]
    dsimp only
    split
    · exact h
    · exact h
  have hremove : ∀ host, LocalOnly (p.onRemove dcOf host) cl := by
    intro host
    rw [DCAwarePolicy.onRemove]
    split
    · exact h
    · exact h
  cases event with
  | add host => exact hadd host
  | up host => exact hadd host
  | remove host => exact hremove host
  | down host => exact hremove host

theorem calls_localOnly [DecidableEq η] [LinearOrder δ] (dcOf : η → δ) {cl : Nat}
    (events : List (PlanEvent η)) (h : LocalOnly p cl) :
    ∀ call ∈ p.calls dcOf events, LocalOnly call.1 cl :=
  calls_forall (LocalOnly · cl) (fun _ _ h => told_localOnly h _) (fun _ _ h => h) events h

theorem handedOut_localOnly [DecidableEq η] [LinearOrder δ]
    {calls : List (DCAwarePolicy η δ × (η → Bool))}
    (hcalls : ∀ call ∈ calls, call.1.Sound dcOf localDc ∧ LocalOnly call.1 plan.cl)
    (h : plan.Valid dcOf localDc) (hzero : plan.remoteRemaining = 0) :
    ∀ host ∈ Dispenser.handedOut computeNext calls plan, plan.LocalAhead host := by
  induction calls generalizing plan with
  | nil => exact fun _ hhost => nomatch hhost
  | cons call calls ih =>
      intro host hhost
      obtain ⟨hsound, hlocal⟩ := hcalls call List.mem_cons_self
      have hcall := dispenses.call call plan hsound h
      obtain ⟨hgiven, hzero', hcl⟩ := computeNext_localOnly call.2 host h hzero
        hlocal
      have hrest := @ih (computeNext call plan).2
        (fun call' hcall' => hcl ▸ hcalls call' (List.mem_cons_of_mem _ hcall')) hcall.keeps hzero'
      obtain ⟨answer, hmem, hanswer⟩ := List.mem_filterMap.mp hhost
      obtain rfl : answer = some host := hanswer
      rcases List.mem_cons.mp hmem with hnow | hlater
      · exact hgiven hnow.symm
      · exact hcall.due_of host (hrest host (List.mem_filterMap.mpr ⟨_, hlater, rfl⟩))

/-- A request that goes through a plan gets no host twice, only hosts that are
up, and those of the local data center first; when it gets none, it has had each
of these, or the host was down when it asked. What the policy is told meanwhile
makes no difference. -/
theorem hosts_once [DecidableEq η] [LinearOrder δ] {first : Option δ} {used : Nat} {skip : Bool}
    (hp : DCAwarePolicy.Reachable dcOf first used skip p) (hlocal : p.localDc = some localDc)
    (cl : Nat) (events : List (PlanEvent η)) :
    Dispenser.HandsOut computeNext (fun call => call.2) (p.calls dcOf events)
      (p.newQueryPlan cl).1 (· ∈ p.localDcLiveHosts) ∧
    ∀ host ∈ Dispenser.handedOut computeNext (p.calls dcOf events) (p.newQueryPlan cl).1,
      host ∈ p.localDcLiveHosts ∨ dcOf host ≠ localDc ∧ ¬ LocalOnly p cl := by
  have hinv := hp.invariant
  have hsound := hinv.sound _ hlocal
  have hcalls := calls_sound events hsound
  have hvalid := new_valid hinv hlocal cl
  refine ⟨dispenses.handsOut hcalls hvalid fun host => (localAhead_new cl host).symm,
    fun host hhost => ?_⟩
  rw [← localAhead_new cl host]
  by_cases hmem : (p.newQueryPlan cl).1.LocalAhead host
  · exact Or.inl hmem
  · refine Or.inr ⟨?_, fun honly => hmem ?_⟩
    · rcases dispenses.handedOut_ahead hcalls hvalid hhost with hahead | ⟨-, hother⟩ | ⟨_, hdcs, -⟩
      · exact absurd hahead hmem
      · exact hother
      · cases hdcs
    · have honly' := calls_localOnly dcOf events honly
      exact handedOut_localOnly (fun call hcall => ⟨hcalls call hcall, honly' call hcall⟩) hvalid
        rfl host hhost

/-- Hosts 1 and 2 are in the data center 0, host 11 in 1. Host 2 goes down, and
12 comes up, while the request goes through them. -/
theorem hosts_once_remote : ∃ (p : DCAwarePolicy Nat Nat) (events : List (PlanEvent Nat)),
    Dispenser.handedOut computeNext (p.calls (· / 10) events) (p.newQueryPlan 1).1 = [1, 11, 12] ∧
      Dispenser.HandsOut computeNext (fun call => call.2) (p.calls (· / 10) events)
        (p.newQueryPlan 1).1 (· ∈ p.localDcLiveHosts) ∧
      ∀ host ∈ Dispenser.handedOut computeNext (p.calls (· / 10) events) (p.newQueryPlan 1).1,
        host ∈ p.localDcLiveHosts ∨ host / 10 ≠ 0 ∧ ¬ LocalOnly p 1 := by
  have hp : DCAwarePolicy.Reachable (· / 10) (some 0) 2 false (_ : DCAwarePolicy Nat Nat) :=
    ((DCAwarePolicy.Reachable.new.told (.add 1) (by decide)).told (.add 2) (by decide)).told
      (.add 11) (by decide)
  exact ⟨_, [.next fun _ => true, .told (.down 2), .told (.up 12), .next (· ≠ 2),
    .next (· ≠ 2), .next (· ≠ 2)], by decide, hosts_once hp rfl 1 _⟩

end DCAwareQueryPlan

end Img2Web.Driver
