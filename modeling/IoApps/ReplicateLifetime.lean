import IoApps.ReplicateReach

/-! The lifetime of the fd_maps: with careful dups none is freed while an item refers to it. -/
namespace IoApps
open Lib (Arena Prog)
open Lib.Prog (Steps)

def Lifetime (env : Env) (meets : State → Op → Prop) (s : State) : Prop :=
  ¬ Dangling s ∧ ∀ op, meets s op → replicateOp env op s ≠ .error .useAfterFree

def carefully : Allowed := { Allowed.any with careless := False }

theorem carefulPermits {env : Env} {s : State} {op : Op} (owned : Owned s)
    (careful : carefulOp env s op) : Permits env carefully s op :=
  Allowed.Lax.permits ⟨trivial,trivial,trivial,fun _ => trivial,fun _ => trivial,fun _ => trivial⟩
    (fun _ _ _ => ⟨trivial,trivial⟩) (fun _ _ => trivial) fun _ => ⟨owned,careful⟩

theorem reachedOwned {env : Env} {pid : Int32} {s : State}
    (reached : Reached env (carefulOp env) pid s) : Owned s :=
  reached.keeps carefully Owned (fun _ began => began.owned)
    (fun _ _ => carefulPermits) (fun _ _ => ownedEdit not_false)

theorem carefulLifetime {env : Env} {pid : Int32} {s : State}
    (reached : Reached env (carefulOp env) pid s) : Lifetime env (carefulOp env) s := by
  have owned := reachedOwned reached
  refine ⟨owned.noDangling,fun op careful => ?_⟩
  refine (opRuns (carefulPermits owned careful)).never Owned
    (fun _ _ => ownedEdit not_false) ?_ owned
  intro t still stop
  cases stop with
  | freed why => exact why.elim still.noDangling id

theorem carefulLifetimeDup : ∃ s, Reached simulating (carefulOp simulating) 7 s ∧
    Lifetime simulating (carefulOp simulating) s := by
  obtain ⟨s,ran⟩ := Option.isSome_iff_exists.mp (show ((initialised simulating 7).bind
    (runOps simulating (carefulOp simulating)
      [opened 7 "/f" 3,.pipe ⟨4,5,0,0,blankInfo 7⟩,duplicated 7 3 5,closed 7 3])).isSome = true
    by decide +kernel)
  exact ⟨s,.run ran,carefulLifetime (.run ran)⟩

def usesFreed (env : Env) (op : Op) (s : State) : Bool :=
  match replicateOp env op s with
  | .error .useAfterFree => true
  | _ => false

theorem dupSelfUsed : ¬ ∀ env pid s, Reached env anyOp pid s → Lifetime env anyOp s := by
  intro all
  have used : ((initialised simulating 7).bind (runOps simulating anyOp [opened 7 "/f" 3])).any
      (usesFreed simulating (duplicated 7 3 3)) = true := by decide +kernel
  obtain ⟨s,ran,faults⟩ := (Option.any_eq_true _ _).mp used
  rw [usesFreed] at faults
  split at faults
  · rename_i stops
    exact (all simulating 7 _ (.run ran)).2 _ trivial stops
  · exact absurd faults (by simp)

end IoApps
