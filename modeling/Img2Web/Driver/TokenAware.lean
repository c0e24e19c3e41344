import Img2Web.Driver.QueryPlans

/-!
`TokenAwarePolicy`: the replicas of a statement's partition come first, then the
hosts of the plan below it, without those replicas.
-/

namespace Img2Web.Driver

namespace TokenAwareQueryPlan

variable {σ ε η : Type} [DecidableEq η] {childNext : ε → σ → Option η × σ} {sound : ε → Prop}
  {isUp isLocal : ε → η → Bool} {childSize : ε → σ → Nat} {valid : σ → Prop}
  {ahead due : σ → η → Prop} {near : η → Bool} {plan : TokenAwareQueryPlan σ η}

omit [DecidableEq η] in
theorem passes_of_near {at' : ε} {host : η} (hnear : isLocal at' host = near host)
    (hhost : near host = true) (hpassed : (isUp at' host && isLocal at' host) = false) :
    isUp at' host = false := by
  rw [hnear, hhost, Bool.and_true] at hpassed
  exact hpassed

/-- A replica that the child's plan is not to give again. -/
def tried (near : η → Bool) (plan : TokenAwareQueryPlan σ η) (host : η) : Bool :=
  plan.replicas.items.contains host && near host

/-- The replicas that are left, and what is left of the child's plan beside the
replicas. -/
def With (near : η → Bool) (ahead : σ → η → Prop) (plan : TokenAwareQueryPlan σ η) (host : η) :
    Prop :=
  host ∈ plan.replicas.ahead ∧ near host = true ∨
    ahead plan.childPlan host ∧ plan.tried near host = false

structure Valid (valid : σ → Prop) (plan : TokenAwareQueryPlan σ η) : Prop where
  fits : plan.replicas.Fits
  once : plan.replicas.ahead.Nodup
  child : valid plan.childPlan

def size (childSize : ε → σ → Nat) (at' : ε) (plan : TokenAwareQueryPlan σ η) : Nat :=
  plan.replicas.remaining + childSize at' plan.childPlan

theorem tried_of_ahead {host : η} (hahead : host ∈ plan.replicas.ahead)
    (hnear : near host = true) : plan.tried near host = true := by
  rw [tried, hnear, Bool.and_true]
  exact List.contains_iff_mem.mpr (Rotation.ahead_subset hahead)

theorem tried_congr {plan' : TokenAwareQueryPlan σ η}
    (h : plan'.replicas.items = plan.replicas.items) : plan'.tried near = plan.tried near := by
  funext host
  rw [tried, tried, h]

/-- A replica is given. -/
theorem replica_call {at' : ε} {host : η} {replicas : Rotation η}
    (hlocal : ∀ host, isLocal at' host = near host) (h : plan.Valid valid)
    (hnext : (plan.replicas.next fun host => isUp at' host && isLocal at' host) =
      (some host, replicas)) :
    Dispenser.Call (isUp at') (size childSize at') (Valid valid) (With near ahead) (With near due)
      plan (some host) ⟨plan.childPlan, replicas⟩ := by
  have hpasses := Rotation.next_passes (fun host => isUp at' host && isLocal at' host) h.fits
  have hfits := Rotation.next_fits (fun host => isUp at' host && isLocal at' host) h.fits
  have hitems := Rotation.next_items (fun host => isUp at' host && isLocal at' host) h.fits
  rw [hnext] at hpasses hfits hitems
  dsimp only at hpasses hfits hitems
  obtain ⟨hup, hnear⟩ := Bool.and_eq_true_iff.mp hpasses.1
  rw [hlocal] at hnear
  have htried : (⟨plan.childPlan, replicas⟩ : TokenAwareQueryPlan σ η).tried near =
      plan.tried near := tried_congr hitems
  have hsubset := hpasses.after_subset
  constructor
  case keeps => exact ⟨hfits, hpasses.nodup h.once, h.child⟩
  case fit =>
    rintro x ⟨⟩
    exact hup
  case shrinks =>
    intro x hx
    rw [With, htried] at hx
    exact hx.imp_left fun hx => ⟨hsubset hx.1, hx.2⟩
  case once =>
    rintro x ⟨⟩
    refine ⟨Or.inl ⟨hpasses.given_mem, hnear⟩, fun hx => ?_⟩
    rw [With, htried] at hx
    rcases hx with ⟨hstill, -⟩ | ⟨-, hnot⟩
    · exact hpasses.given_notMem h.once hstill
    · exact Bool.noConfusion ((tried_of_ahead hpasses.given_mem hnear).symm.trans hnot)
  case decreases =>
    intro x _
    have hless := Rotation.next_remaining h.fits (congrArg Prod.fst hnext)
    rw [hnext] at hless
    exact Nat.add_lt_add_right hless _
  case still_due =>
    intro x hx hdue
    rw [With, htried] at hx ⊢
    rcases hdue with ⟨hreplica, hx'⟩ | hchild
    · rcases hx with hstill | ⟨-, hnot⟩
      · exact Or.inl hstill
      · exact Bool.noConfusion ((tried_of_ahead hreplica hx').symm.trans hnot)
    · exact Or.inr hchild
  case due_of =>
    intro x hx
    rw [With, htried] at hx
    exact hx.imp_left fun hx => ⟨hsubset hx.1, hx.2⟩
  case kept =>
    intro x hdue
    rw [With, htried]
    rcases hdue with ⟨hreplica, hx⟩ | hchild
    · rcases hpasses.kept hreplica with hstill | hgiven | hpassed
      · exact Or.inl (Or.inl ⟨hstill, hx⟩)
      · exact Or.inr (Or.inl hgiven)
      · exact Or.inr (Or.inr (passes_of_near (hlocal x) hx hpassed))
    · exact Or.inl (Or.inr hchild)
  case first =>
    rintro x ⟨⟩
    exact Or.inl (Or.inl ⟨hpasses.given_mem, hnear⟩)
  case ended => exact fun hnone => nomatch hnone

/-- No replica is given, and the child's plan goes on. -/
theorem child_call {at' : ε} {replicas : Rotation η}
    (hchild : Dispenser.Dispenses childNext sound isUp childSize valid ahead due)
    (hsound : sound at') (hlocal : ∀ host, isLocal at' host = near host) (h : plan.Valid valid)
    (hnext : (plan.replicas.next fun host => isUp at' host && isLocal at' host) =
      (none, replicas)) :
    Dispenser.Call (isUp at') (size childSize at') (Valid valid) (With near ahead) (With near due)
      plan
      (Dispenser.nextExcept childNext (plan.tried near) at' (childSize at' plan.childPlan + 1)
        plan.childPlan).1
      ⟨(Dispenser.nextExcept childNext (plan.tried near) at' (childSize at' plan.childPlan + 1)
        plan.childPlan).2, replicas⟩ := by
  have hpasses := Rotation.next_passes (fun host => isUp at' host && isLocal at' host) h.fits
  have hfits := Rotation.next_fits (fun host => isUp at' host && isLocal at' host) h.fits
  have hitems := Rotation.next_items (fun host => isUp at' host && isLocal at' host) h.fits
  rw [hnext] at hpasses hfits hitems
  dsimp only at hpasses hfits hitems
  have hcall := hchild.nextExcept_call (plan.tried near) hsound h.child
    (Nat.lt_succ_self (childSize at' plan.childPlan))
  revert hcall
  generalize Dispenser.nextExcept childNext (plan.tried near) at'
    (childSize at' plan.childPlan + 1) plan.childPlan = result
  intro hcall
  have htried : (⟨result.2, replicas⟩ : TokenAwareQueryPlan σ η).tried near = plan.tried near :=
    tried_congr hitems
  have hrest : ∀ (left : σ → η → Prop) x,
      With near left (⟨result.2, replicas⟩ : TokenAwareQueryPlan σ η) x ↔
        left result.2 x ∧ plan.tried near x = false := by
    intro left x
    rw [With, htried]
    refine or_iff_right fun hx => ?_
    rw [hpasses.1] at hx
    cases hx.1
  constructor
  case keeps =>
    refine ⟨hfits, ?_, hcall.keeps⟩
    rw [hpasses.1]
    exact List.nodup_nil
  case fit => exact hcall.fit
  case shrinks => exact fun x hx => Or.inr (hcall.shrinks x ((hrest ahead x).mp hx))
  case once =>
    intro x hx
    obtain ⟨hbefore, hafter⟩ := hcall.once x hx
    exact ⟨Or.inr hbefore, fun hstill => hafter ((hrest ahead x).mp hstill)⟩
  case decreases =>
    intro x hx
    have hless := hcall.decreases x hx
    have hremaining := Rotation.remaining_of_ahead hfits hpasses.1
    simp only [size, hremaining]
    omega
  case still_due =>
    intro x hx hdue
    have hahead := (hrest ahead x).mp hx
    rcases hdue with ⟨hreplica, hx'⟩ | hdue
    · exact Bool.noConfusion ((tried_of_ahead hreplica hx').symm.trans hahead.2)
    · exact (hrest due x).mpr (hcall.still_due x hahead hdue)
  case due_of => exact fun x hx => Or.inr (hcall.due_of x ((hrest due x).mp hx))
  case kept =>
    rintro x (⟨hreplica, hx⟩ | hdue)
    · exact Or.inr (Or.inr (passes_of_near (hlocal x) hx (hpasses.2 x hreplica)))
    · exact (hcall.kept x hdue).imp_left (hrest due x).mpr
  case first =>
    intro x hx
    exact (hcall.first x hx).imp Or.inr fun hnone y hy => hnone y ((hrest due y).mp hy)
  case ended => exact fun hnone y hy => hcall.ended hnone y ((hrest due y).mp hy)

/-- Over any plan that hands out its hosts properly, so does this one. -/
theorem dispenses (hchild : Dispenser.Dispenses childNext sound isUp childSize valid ahead due)
    (hlocal : ∀ at', sound at' → ∀ host, isLocal at' host = near host) :
    Dispenser.Dispenses (computeNext childNext isUp isLocal childSize) sound isUp
      (size childSize) (Valid valid) (With near ahead) (With near due) where
  call at' plan hsound h := by
    rw [computeNext]
    obtain ⟨given, replicas, hnext⟩ : ∃ given replicas,
        (plan.replicas.next fun host => isUp at' host && isLocal at' host) = (given, replicas) :=
      ⟨_, _, rfl⟩
    have hitems := Rotation.next_items (fun host => isUp at' host && isLocal at' host) h.fits
    rw [hnext] at hitems ⊢
    cases given with
    | some host => exact replica_call (hlocal at' hsound) h hnext
    | none =>
        have hskip : (fun host => replicas.items.contains host && isLocal at' host) =
            plan.tried near := by
          funext host
          rw [tried, hlocal at' hsound host, ← show replicas.items = _ from hitems]
        dsimp only
        rw [hskip]
        exact child_call hchild hsound (hlocal at' hsound) h hnext
  due_ahead plan host h hdue := hdue.imp_right fun hdue =>
    ⟨hchild.due_ahead plan.childPlan host h.child hdue.1, hdue.2⟩

end TokenAwareQueryPlan

namespace DCAwarePolicy

variable {η δ : Type} [DecidableEq η] [LinearOrder δ] {dcOf : η → δ} {localDc : δ}
  {p : DCAwarePolicy η δ}

/-- `distance` is `LOCAL`. -/
def isLocal (dcOf : η → δ) (p : DCAwarePolicy η δ) (host : η) : Bool :=
  p.distance dcOf host = .localHost

theorem Sound.isLocal_eq (h : p.Sound dcOf localDc) (host : η) :
    p.isLocal dcOf host = decide (dcOf host = localDc) := by
  rw [isLocal, distance, h.known]
  refine decide_eq_decide.mpr ⟨fun hdistance => ?_, fun hhost => if_pos (Or.inr ?_)⟩
  · split at hdistance
    case isTrue hsome => exact (Option.some.inj (hsome.resolve_left nofun)).symm
    case isFalse =>
      split at hdistance
      · cases hdistance
      · cases hdistance
  · rw [hhost]

end DCAwarePolicy

namespace TokenAwareQueryPlan

variable {η δ : Type} [DecidableEq η] [LinearOrder δ] {dcOf : η → δ} {localDc : δ}
  {p : DCAwarePolicy η δ} {replicas : List η} {index : Nat}

/-- `compute_next` over a `DCAwareQueryPlan`. -/
def nextOverDCAware (dcOf : η → δ) :
    DCAwarePolicy η δ × (η → Bool) → TokenAwareQueryPlan (DCAwareQueryPlan η δ) η →
      Option η × TokenAwareQueryPlan (DCAwareQueryPlan η δ) η :=
  computeNext DCAwareQueryPlan.computeNext (fun call => call.2)
    (fun call => call.1.isLocal dcOf) fun call => DCAwareQueryPlan.size call.1

/-- With replicas that differ, no host is given twice. The replicas of the local
data center come first, then its other hosts, then the remote ones; when none is
given, each of the local hosts has been given, or was down when asked for. -/
theorem replicas_first {first : Option δ} {used : Nat} {skip : Bool}
    (hp : DCAwarePolicy.Reachable dcOf first used skip p) (hlocal : p.localDc = some localDc)
    (cl : Nat) (hreplicas : replicas.Nodup) (events : List (PlanEvent η)) :
    Dispenser.HandsOut (nextOverDCAware dcOf) (fun call => call.2) (p.calls dcOf events)
        (new (p.newQueryPlan cl).1 replicas index)
        (fun host => host ∈ replicas ∧ dcOf host = localDc) ∧
      Dispenser.HandsOut (nextOverDCAware dcOf) (fun call => call.2) (p.calls dcOf events)
        (new (p.newQueryPlan cl).1 replicas index)
        (fun host => host ∈ replicas ∧ dcOf host = localDc ∨ host ∈ p.localDcLiveHosts) := by
  have hinv := hp.invariant
  have hcalls := DCAwareQueryPlan.calls_sound events (hinv.sound _ hlocal)
  have hvalid : (new (p.newQueryPlan cl).1 replicas index).Valid
      (DCAwareQueryPlan.Valid dcOf localDc) :=
    ⟨Rotation.new_fits .., Rotation.nodup_ahead hreplicas,
      DCAwareQueryPlan.new_valid hinv hlocal cl⟩
  have hnear : ∀ call : DCAwarePolicy η δ × (η → Bool), call.1.Sound dcOf localDc →
      ∀ host, call.1.isLocal dcOf host = decide (dcOf host = localDc) :=
    fun call hsound => hsound.isLocal_eq
  have hmem : ∀ host, host ∈ (new (p.newQueryPlan cl).1 replicas index).replicas.ahead ↔
      host ∈ replicas := by
    intro host
    have hnew : (new (p.newQueryPlan cl).1 replicas index).replicas = .new replicas index := rfl
    rw [hnew, Rotation.ahead_new, List.mem_rotate]
  constructor
  · refine (dispenses DCAwareQueryPlan.dispenses.nothing_due hnear).handsOut hcalls hvalid ?_
    intro host
    rw [With, hmem, decide_eq_true_iff]
    exact (or_iff_left fun hnone => hnone.1).symm
  · refine (dispenses DCAwareQueryPlan.dispenses hnear).handsOut hcalls hvalid ?_
    intro host
    rw [With, hmem, decide_eq_true_iff]
    refine ⟨fun hhost => ?_, fun hhost => ?_⟩
    · by_cases hreplica : host ∈ replicas ∧ dcOf host = localDc
      · exact Or.inl hreplica
      · refine Or.inr ⟨?_, ?_⟩
        · exact (DCAwareQueryPlan.localAhead_new cl host).mpr (hhost.resolve_left hreplica)
        · rw [tried, Bool.and_eq_false_iff]
          by_contra! hboth
          refine hreplica ⟨?_, ?_⟩
          · exact List.contains_iff_mem.mp (Bool.eq_true_of_not_eq_false hboth.1)
          · exact of_decide_eq_true (Bool.eq_true_of_not_eq_false hboth.2)
    · exact hhost.imp_right fun hchild => (DCAwareQueryPlan.localAhead_new cl host).mp hchild.1

/-- Hosts 1, 2 and 3 are in the data center 0, host 11 in 1; 11 and 2 are the
replicas. -/
theorem replicas_first_remote : ∃ (p : DCAwarePolicy Nat Nat) (events : List (PlanEvent Nat)),
    Dispenser.handedOut (nextOverDCAware (· / 10)) (p.calls (· / 10) events)
        (new (p.newQueryPlan 1).1 [11, 2] 0) = [2, 1, 3, 11] ∧
      Dispenser.HandsOut (nextOverDCAware (· / 10)) (fun call => call.2)
        (p.calls (· / 10) events) (new (p.newQueryPlan 1).1 [11, 2] 0)
        (fun host => host ∈ [11, 2] ∧ host / 10 = 0) ∧
      Dispenser.HandsOut (nextOverDCAware (· / 10)) (fun call => call.2)
        (p.calls (· / 10) events) (new (p.newQueryPlan 1).1 [11, 2] 0)
        (fun host => host ∈ [11, 2] ∧ host / 10 = 0 ∨ host ∈ p.localDcLiveHosts) := by
  have hp : DCAwarePolicy.Reachable (· / 10) none 1 false (_ : DCAwarePolicy Nat Nat) :=
    (((DCAwarePolicy.Reachable.new.told (.add 1) (by decide)).told (.add 2) (by decide)).told
      (.add 3) (by decide)).told (.up 11) (by decide)
  exact ⟨_, List.replicate 5 (.next fun _ => true), by decide,
    replicas_first hp rfl 1 (by decide) _⟩

/-- A host that is listed for two of its tokens, as `SimpleStrategy` lists it, is
given twice. -/
example : Dispenser.handedOut (nextOverDCAware (· / 10))
    (((DCAwarePolicy.new none 0 true : DCAwarePolicy Nat Nat).onAdd (· / 10) 1).calls (· / 10)
      (List.replicate 3 (.next fun _ => true)))
    (new (((DCAwarePolicy.new none 0 true : DCAwarePolicy Nat Nat).onAdd (· / 10) 1).newQueryPlan
      1).1 [1, 1] 0) = [1, 1] := by decide

end TokenAwareQueryPlan

end Img2Web.Driver
