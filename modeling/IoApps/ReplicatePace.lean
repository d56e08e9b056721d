import IoApps.ReplicateUsage

/-! When the records are replayed. Before each of them the replicator reads the cycle counter until
the call is due: after the same gap as in the trace, or at the same time from its beginning. -/
namespace IoApps
open Lib (Prog)

inductive TimeMode where
  | unset | diff | exact | asap
  deriving DecidableEq, Repr

/-- What the pace depends on. `rdtsc` is the counter at each of its readings, `scale` the
multiplication by the factor of the -s option, which is one of floating point numbers. -/
structure Timing where
  mode : TimeMode
  scale : Int64 → Int64
  clockRate : UInt64
  rdtsc : Nat → UInt64

structure Pace where
  lastCallOrig : UInt64
  firstCallOrig : UInt64
  counterFirst : UInt64
  counterLast : UInt64
  reads : Nat
  deriving DecidableEq, Repr

inductive PaceFault where
  | replay (f : Fault)
  | noRate
  | waiting
  deriving DecidableEq, Repr

abbrev Paced := Prog (State × Pace) PaceFault

def callTime (info : OpInfo) : UInt64 :=
  info.start.tvSec.toInt64.toUInt64 * 1000000 + info.start.tvUsec.toInt64.toUInt64

def durTime (info : OpInfo) : UInt64 := info.dur.toUInt32.toUInt64

section Pacing
variable (t : Timing)

def diffReal (counterReal counter : UInt64) : Int64 :=
  ((counterReal - counter) * 1000000 / t.clockRate).toInt64

def waitDue : Nat → Int64 → UInt64 → Nat → Except PaceFault Nat
  | 0,_,_,_ => .error .waiting
  | fuel + 1,diffOrig,counter,reads =>
    if diffOrig - diffReal t (t.rdtsc reads) counter > 60 then
      waitDue fuel diffOrig counter (reads + 1)
    else .ok (reads + 1)

def pacedWait (fuel : Nat) (diffOrig : Int64) (counter : UInt64) (p : Pace) :
    Except PaceFault Pace :=
  if t.clockRate = 0 then .error .noRate
  else (waitDue t fuel diffOrig counter p.reads).map fun reads => { p with reads := reads }

def paceBefore (fuel : Nat) (info : OpInfo) (p : Pace) : Except PaceFault Pace :=
  match t.mode with
  | .diff =>
    pacedWait t fuel (t.scale (callTime info - p.lastCallOrig).toInt64) p.counterLast p
  | .exact => pacedWait t fuel (callTime info - p.firstCallOrig).toInt64 p.counterFirst p
  | .asap | .unset => .ok p

def paceAfter (info : OpInfo) (p : Pace) : Pace :=
  match t.mode with
  | .diff => { p with
      lastCallOrig := callTime info + durTime info, counterLast := t.rdtsc p.reads,
      reads := p.reads + 1 }
  | .exact | .asap | .unset => p

def paceBegin (info : OpInfo) : Pace where
  lastCallOrig := callTime info
  firstCallOrig := callTime info
  counterFirst := t.rdtsc 0
  counterLast := t.rdtsc 1
  reads := 2

def onReplay {α : Type} (m : Replay α) : Paced α := fun s =>
  match m s.1 with
  | .ok (a,s') => .ok (a,s',s.2)
  | .error f => .error (.replay f)

def onPace (f : Pace → Except PaceFault Pace) : Paced Pace := fun s =>
  match f s.2 with
  | .ok p => .ok (p,s.1,p)
  | .error e => .error e

end Pacing

section Env
variable (env : Env) (t : Timing) (fuel : Nat)

def pacedOps : List Op → Paced (List Pace)
  | [] => pure []
  | op :: rest => do
    let p ← onPace (paceBefore t fuel op.info)
    onReplay (replicateOp env op)
    let _ ← onPace fun p => .ok (paceAfter t op.info p)
    let ps ← pacedOps rest
    pure (p :: ps)

def pacedReplicate : List Op → Paced (Int32 × List Pace)
  | [] => fun _ => .error (.replay .nullTable)
  | op :: rest => do
    let rv ← onReplay (replicateInit env op.info.pid)
    if rv ≠ 0 then pure (-1,[])
    else do
      let _ ← onPace fun _ => .ok (paceBegin t op.info)
      let ps ← pacedOps env t fuel (op :: rest)
      pure (0,ps)

end Env
section Arithmetic
variable {t : Timing}

def recordedAt (info : OpInfo) : Int := info.start.tvSec.toInt * 1000000 + info.start.tvUsec.toInt

def returnedAt (info : OpInfo) : Int := recordedAt info + info.dur.toUInt32.toNat

theorem bmodSmall {z : Int} (low : -2^63 ≤ z) (high : z < 2^63) : z.bmod (2^64) = z :=
  Int.bmod_eq_of_le (by omega) (by omega)

theorem int64Sub {a b : Int64} (low : -2^63 ≤ a.toInt - b.toInt)
    (high : a.toInt - b.toInt < 2^63) : (a - b).toInt = a.toInt - b.toInt := by
  rw [Int64.toInt_sub,bmodSmall low high]

theorem int64Add {a b : Int64} (low : -2^63 ≤ a.toInt + b.toInt)
    (high : a.toInt + b.toInt < 2^63) : (a + b).toInt = a.toInt + b.toInt := by
  rw [Int64.toInt_add,bmodSmall low high]

theorem recordedSmall (info : OpInfo) : -2^52 ≤ recordedAt info ∧ recordedAt info < 2^52 := by
  have s := info.start.tvSec.toInt_lt
  have s' := info.start.tvSec.le_toInt
  have u := info.start.tvUsec.toInt_lt
  have u' := info.start.tvUsec.le_toInt
  unfold recordedAt
  omega

theorem callTimeExact (info : OpInfo) : (callTime info).toInt64.toInt = recordedAt info := by
  have s := info.start.tvSec.toInt_lt
  have s' := info.start.tvSec.le_toInt
  have u := info.start.tvUsec.toInt_lt
  have u' := info.start.tvUsec.le_toInt
  have million : (1000000 : UInt64).toInt64.toInt = 1000000 := by decide
  have sec : (info.start.tvSec.toInt64.toUInt64 * 1000000).toInt64.toInt =
      info.start.tvSec.toInt * 1000000 := by
    rw [UInt64.toInt64_mul,Int64.toInt64_toUInt64,Int64.toInt_mul,Int32.toInt_toInt64,million,
      bmodSmall (by omega) (by omega)]
  have usec : info.start.tvUsec.toInt64.toUInt64.toInt64.toInt = info.start.tvUsec.toInt := by
    rw [Int64.toInt64_toUInt64,Int32.toInt_toInt64]
  unfold callTime recordedAt
  rw [UInt64.toInt64_add,int64Add (by omega) (by omega),sec,usec]

theorem smallExact {x : UInt64} (small : x.toNat < 2^63) : x.toInt64.toInt = x.toNat := by
  have same : x.toInt64.toInt = x.toBitVec.toInt := rfl
  have half : 2 * x.toBitVec.toNat < 2^64 := by
    have here : x.toBitVec.toNat = x.toNat := rfl
    omega
  rw [same,BitVec.toInt_eq_toNat_of_lt half]
  rfl

theorem durTimeExact (info : OpInfo) :
    (durTime info).toInt64.toInt = info.dur.toUInt32.toNat := by
  have small := info.dur.toUInt32.toNat_lt
  have same : (durTime info).toNat = info.dur.toUInt32.toNat := UInt32.toNat_toUInt64 _
  rw [smallExact (by omega),same]

theorem sinceCall (a b : OpInfo) :
    (callTime a - callTime b).toInt64.toInt = recordedAt a - recordedAt b := by
  have small := recordedSmall a
  have small' := recordedSmall b
  have here := callTimeExact a
  have there := callTimeExact b
  rw [UInt64.toInt64_sub,int64Sub (by omega) (by omega),here,there]

theorem sinceReturn (a b : OpInfo) :
    (callTime a - (callTime b + durTime b)).toInt64.toInt = recordedAt a - returnedAt b := by
  have small := recordedSmall a
  have small' := recordedSmall b
  have here := callTimeExact a
  have there := callTimeExact b
  have dur := durTimeExact b
  have bound := b.dur.toUInt32.toNat_lt
  have back : (callTime b + durTime b).toInt64.toInt = returnedAt b := by
    rw [UInt64.toInt64_add,int64Add (by omega) (by omega),there,dur]
    rfl
  have wide : -2^63 ≤ recordedAt a - returnedAt b ∧ recordedAt a - returnedAt b < 2^63 := by
    unfold returnedAt
    omega
  rw [UInt64.toInt64_sub,int64Sub (by omega) (by omega),here,back]

def ticks (now base : UInt64) : Nat := (now - base).toNat

def toldMicros (t : Timing) (now base : UInt64) : Nat :=
  ticks now base * 1000000 % 2^64 / t.clockRate.toNat

theorem toldSmall (fast : 4 ≤ t.clockRate.toNat) (now base : UInt64) :
    toldMicros t now base < 2^62 := by
  have below : ticks now base * 1000000 % 2^64 < 2^64 := Nat.mod_lt _ (by decide)
  exact Nat.div_lt_of_lt_mul (by omega)

theorem diffRealExact (fast : 4 ≤ t.clockRate.toNat) (now base : UInt64) :
    (diffReal t now base).toInt = toldMicros t now base := by
  have same : ((now - base) * 1000000 / t.clockRate).toNat = toldMicros t now base := by
    rw [UInt64.toNat_div,UInt64.toNat_mul]
    rfl
  have small := toldSmall fast now base
  rw [diffReal,smallExact (by omega),same]

end Arithmetic
section Waiting
variable {t : Timing}

def DueAt (t : Timing) (diffOrig : Int) (now base : UInt64) : Prop :=
  diffOrig - toldMicros t now base ≤ 60

theorem dueExact (fast : 4 ≤ t.clockRate.toNat) {d : Int64} (low : -2^62 ≤ d.toInt)
    (now base : UInt64) : d - diffReal t now base > 60 ↔ ¬ DueAt t d.toInt now base := by
  have real := diffRealExact fast now base
  have small := toldSmall fast now base
  have high := d.toInt_lt
  have sixty : (60 : Int64).toInt = 60 := by decide
  rw [gt_iff_lt,Int64.lt_iff_toInt_lt,int64Sub (by omega) (by omega),real,sixty,DueAt]
  omega

theorem waitDueAt (fast : 4 ≤ t.clockRate.toNat) {fuel : Nat} {d : Int64} {base : UInt64}
    (low : -2^62 ≤ d.toInt) {reads reads' : Nat}
    (waited : waitDue t fuel d base reads = .ok reads') :
    reads < reads' ∧ DueAt t d.toInt (t.rdtsc (reads' - 1)) base := by
  induction fuel generalizing reads with
  | zero => exact absurd waited (by simp [waitDue])
  | succ fuel ih =>
    rw [waitDue] at waited
    split at waited
    · obtain ⟨later,due⟩ := ih waited
      exact ⟨by omega,due⟩
    · rename_i due
      rw [dueExact fast low,not_not] at due
      cases waited
      exact ⟨Nat.lt_succ_self _,due⟩

theorem pacedWaitAt (fast : 4 ≤ t.clockRate.toNat) {fuel : Nat} {d : Int64} {base : UInt64}
    (low : -2^62 ≤ d.toInt) {p p' : Pace} (waited : pacedWait t fuel d base p = .ok p') :
    p' = { p with reads := p'.reads } ∧ DueAt t d.toInt (t.rdtsc (p'.reads - 1)) base := by
  rw [pacedWait] at waited
  split at waited
  · exact absurd waited (by simp)
  · cases ran : waitDue t fuel d base p.reads with
    | error f =>
      rw [ran] at waited
      exact absurd waited (by simp [Except.map])
    | ok reads =>
      rw [ran] at waited
      cases waited
      exact ⟨rfl,(waitDueAt fast low ran).2⟩

def Passed (t : Timing) (micros : Int) (now base : UInt64) : Prop :=
  (micros - 60) * t.clockRate.toNat ≤ ticks now base * 1000000

theorem DueAt.passed {micros : Int} {now base : UInt64} (due : DueAt t micros now base) :
    Passed t micros now base := by
  have told : toldMicros t now base * t.clockRate.toNat ≤ ticks now base * 1000000 :=
    (Nat.div_mul_le_self _ _).trans (Nat.mod_le _ _)
  have least : micros - 60 ≤ toldMicros t now base := by
    rw [DueAt] at due
    omega
  calc (micros - 60) * t.clockRate.toNat
      ≤ (toldMicros t now base : Int) * t.clockRate.toNat :=
        Int.mul_le_mul_of_nonneg_right least (Int.natCast_nonneg _)
    _ ≤ ticks now base * 1000000 := by exact_mod_cast told

theorem DueAt.reachable {micros : Int} {now base : UInt64} (due : DueAt t micros now base) :
    (micros - 60) * t.clockRate.toNat < 2^64 := by
  have told : toldMicros t now base * t.clockRate.toNat ≤ ticks now base * 1000000 % 2^64 :=
    Nat.div_mul_le_self _ _
  have below : ticks now base * 1000000 % 2^64 < 2^64 := Nat.mod_lt _ (by decide)
  have least : micros - 60 ≤ toldMicros t now base := by
    rw [DueAt] at due
    omega
  calc (micros - 60) * t.clockRate.toNat
      ≤ (toldMicros t now base : Int) * t.clockRate.toNat :=
        Int.mul_le_mul_of_nonneg_right least (Int.natCast_nonneg _)
    _ < 2^64 := by exact_mod_cast told.trans_lt below

theorem forallMember {α β : Type} {R : α → β → Prop} {as : List α} {bs : List β} {a : α}
    (all : List.Forall₂ R as bs) (member : a ∈ as) : ∃ b, b ∈ bs ∧ R a b := by
  induction all with
  | nil => exact absurd member List.not_mem_nil
  | cons here _ ih =>
    cases member with
    | head => exact ⟨_,List.mem_cons_self,here⟩
    | tail _ member =>
      obtain ⟨b,inside,related⟩ := ih member
      exact ⟨b,List.mem_cons_of_mem _ inside,related⟩

end Waiting
/-- A clock that goes on between two readings, by some ticks at most. -/
structure Ticking (t : Timing) (step : Nat) where
  count : Nat → Nat
  reads : ∀ n, t.rdtsc n = UInt64.ofNat (count n)
  goes : ∀ n, count n < count (n + 1)
  most : ∀ n, count (n + 1) ≤ count n + step

/-- The -s option takes no gap a trace can tell too far below zero. No factor from -256 to 256
does. -/
def Timing.Scales (t : Timing) : Prop :=
  ∀ d : Int64, -2^54 ≤ d.toInt → d.toInt ≤ 2^54 → -2^62 ≤ (t.scale d).toInt

def steady (mode : TimeMode) : Timing where
  mode := mode
  scale d := d
  clockRate := 1000000
  rdtsc n := UInt64.ofNat (25 * n)

def steadyTicking (mode : TimeMode) : Ticking (steady mode) 25 where
  count n := 25 * n
  reads _ := rfl
  goes _ := by omega
  most _ := by omega

theorem steadyScales (mode : TimeMode) : (steady mode).Scales := by
  intro d low _
  have same : (steady mode).scale d = d := rfl
  rw [same]
  omega

def Pace.zero : Pace := ⟨0,0,0,0,0⟩

def timed (pid sec usec : Int32) : OpInfo := ⟨pid,10,⟨sec,usec⟩⟩

def openedFirst : Op := .open ⟨stdName "/f",0,MODE_UNDEF,3,timed 7 0 0⟩

def closedAt (sec usec : Int32) : Op := .close ⟨3,0,timed 7 sec usec⟩

def openedLater : List Op := [openedFirst,closedAt 0 200]

def pacesOf (r : Except PaceFault ((Int32 × List Pace) × State × Pace)) :
    Option (Int32 × List Pace) :=
  match r with
  | .ok done => .some done.1
  | .error _ => .none

theorem pacesOfOk {r : Except PaceFault ((Int32 × List Pace) × State × Pace)}
    {done : Int32 × List Pace} (ran : pacesOf r = .some done) :
    ∃ s p, r = .ok (done,s,p) := by
  cases r with
  | error e => cases ran
  | ok end_ =>
    cases ran
    exact ⟨_,_,rfl⟩

section Runs
variable {env : Env} {t : Timing} {fuel : Nat} {s s' : State} {p p' : Pace}

theorem onPaceOk {f : Pace → Except PaceFault Pace} {q : Pace}
    (ran : onPace f (s,p) = .ok (q,s',p')) : f p = .ok q ∧ s' = s ∧ p' = q := by
  rw [onPace] at ran
  cases got : f p with
  | error e =>
    simp only [got] at ran
    exact absurd ran (by simp)
  | ok q' =>
    simp only [got] at ran
    cases ran
    exact ⟨rfl,rfl,rfl⟩

theorem onReplayOk {α : Type} {m : Replay α} {a : α}
    (ran : onReplay m (s,p) = .ok (a,s',p')) : m s = .ok (a,s') ∧ p' = p := by
  rw [onReplay] at ran
  cases got : m s with
  | error f =>
    simp only [got] at ran
    exact absurd ran (by simp)
  | ok r =>
    simp only [got] at ran
    cases ran
    exact ⟨rfl,rfl⟩

theorem pacedCons {op : Op} {rest : List Op} {ps : List Pace}
    (ran : pacedOps env t fuel (op :: rest) (s,p) = .ok (ps,s',p')) : ∃ q qs u,
      paceBefore t fuel op.info p = .ok q ∧ replicateOp env op s = .ok ((),u) ∧ ps = q :: qs ∧
      pacedOps env t fuel rest (u,paceAfter t op.info q) = .ok (qs,s',p') := by
  rw [pacedOps] at ran
  obtain ⟨q,⟨s₁,p₁⟩,before,replays⟩ := Prog.bindOk.mp ran
  obtain ⟨waited,sameState,samePace⟩ := onPaceOk before
  subst sameState samePace
  obtain ⟨⟨⟩,⟨s₂,p₂⟩,replayed,moves⟩ := Prog.bindOk.mp replays
  obtain ⟨done,samePace⟩ := onReplayOk replayed
  subst samePace
  obtain ⟨q',⟨s₃,p₃⟩,after,follows⟩ := Prog.bindOk.mp moves
  obtain ⟨moved,sameState,samePace⟩ := onPaceOk after
  subst sameState samePace
  cases moved
  obtain ⟨qs,⟨s₄,p₄⟩,others,last⟩ := Prog.bindOk.mp follows
  cases last
  exact ⟨_,qs,_,waited,done,rfl,others⟩

theorem pacedOkCons {op : Op} {rest : List Op} {ps : List Pace}
    (ran : pacedReplicate env t fuel (op :: rest) (s,p) = .ok ((0,ps),s',p')) : ∃ u,
      replicateInit env op.info.pid s = .ok (0,u) ∧
      pacedOps env t fuel (op :: rest) (u,paceBegin t op.info) = .ok (ps,s',p') := by
  rw [pacedReplicate] at ran
  obtain ⟨rv,⟨u,p₁⟩,began,follows⟩ := Prog.bindOk.mp ran
  obtain ⟨init,samePace⟩ := onReplayOk began
  subst samePace
  by_cases zero : rv = 0
  · rw [if_neg (not_not.mpr zero)] at follows
    obtain ⟨q,⟨s₂,p₂⟩,begun,replays⟩ := Prog.bindOk.mp follows
    obtain ⟨same,sameState,samePace⟩ := onPaceOk begun
    subst sameState samePace
    cases same
    obtain ⟨qs,⟨s₃,p₃⟩,all,last⟩ := Prog.bindOk.mp replays
    cases last
    exact ⟨_,by rw [init,zero],all⟩
  · rw [if_pos zero] at follows
    cases follows

def OnTime (t : Timing) (first : OpInfo) (op : Op) (p : Pace) : Prop :=
  DueAt t (recordedAt op.info - recordedAt first) (t.rdtsc (p.reads - 1)) (t.rdtsc 0)

theorem exactRun (mode : t.mode = .exact) (fast : 4 ≤ t.clockRate.toNat) {first : OpInfo}
    {ops : List Op} {ps : List Pace} (call : p.firstCallOrig = callTime first)
    (counter : p.counterFirst = t.rdtsc 0)
    (ran : pacedOps env t fuel ops (s,p) = .ok (ps,s',p')) :
    List.Forall₂ (OnTime t first) ops ps := by
  induction ops generalizing s p ps with
  | nil =>
    cases ran
    exact .nil
  | cons op rest ih =>
    obtain ⟨q,qs,u,waited,_,rfl,others⟩ := pacedCons ran
    rw [paceBefore,mode,call,counter] at waited
    have exact_ := sinceCall op.info first
    have small := recordedSmall op.info
    have small' := recordedSmall first
    obtain ⟨same,due⟩ := pacedWaitAt fast (by omega) waited
    rw [exact_] at due
    have still : paceAfter t op.info q = q := by rw [paceAfter,mode]
    rw [still] at others
    refine .cons due (ih ?_ ?_ others)
    · rw [same]
      exact call
    · rw [same]
      exact counter

def NotEarly (t : Timing) (first : OpInfo) (op : Op) (p : Pace) : Prop :=
  Passed t (recordedAt op.info - recordedAt first) (t.rdtsc (p.reads - 1)) (t.rdtsc 0)

/-- With -t exact no call is made earlier than in the original run, from the first call on. -/
theorem exactNeverEarly (mode : t.mode = .exact) (fast : 4 ≤ t.clockRate.toNat) {op : Op}
    {rest : List Op} {ps : List Pace}
    (ran : pacedReplicate env t fuel (op :: rest) (s,p) = .ok ((0,ps),s',p')) :
    List.Forall₂ (NotEarly t op.info) (op :: rest) ps := by
  obtain ⟨u,_,all⟩ := pacedOkCons ran
  exact (exactRun mode fast rfl rfl all).imp fun _ _ => DueAt.passed

theorem exactNeverEarlyLater : List.Forall₂ (NotEarly (steady .exact) openedFirst.info)
    openedLater [⟨0,0,0,25,3⟩,⟨0,0,0,25,7⟩] := by
  have ran : pacesOf (pacedReplicate replaying (steady .exact) 100 openedLater
      (State.start,.zero)) = .some (0,[⟨0,0,0,25,3⟩,⟨0,0,0,25,7⟩]) := by decide +kernel
  obtain ⟨s,p,same⟩ := pacesOfOk ran
  exact exactNeverEarly rfl (by decide) same

/-- With -t exact the counter is multiplied before it is divided, so a trace in which a call comes
later than it can then tell is never replayed to the end, whatever the clock does. -/
theorem exactStuck (mode : t.mode = .exact) (fast : 4 ≤ t.clockRate.toNat) {op : Op}
    {rest : List Op} {o : Op} (member : o ∈ op :: rest)
    (late : 2^64 ≤ (recordedAt o.info - recordedAt op.info - 60) * t.clockRate.toNat)
    (ps : List Pace) : pacedReplicate env t fuel (op :: rest) (s,p) ≠ .ok ((0,ps),s',p') := by
  intro ran
  obtain ⟨u,_,all⟩ := pacedOkCons ran
  obtain ⟨q,_,due⟩ := forallMember (exactRun mode fast rfl rfl all) member
  have told := due.reachable
  omega

def gigahertz : Timing := { steady .exact with clockRate := 1000000000 }

theorem exactStuckHours : ¬ ∃ ps s' p', pacedReplicate replaying gigahertz 1000
    [openedFirst,closedAt 21600 0] (State.start,.zero) = .ok ((0,ps),s',p') := by
  have late : 2^64 ≤ (recordedAt (closedAt 21600 0).info - recordedAt openedFirst.info - 60) *
      (gigahertz.clockRate.toNat : Int) := by decide +kernel
  have fast : 4 ≤ gigahertz.clockRate.toNat := by decide +kernel
  have member : closedAt 21600 0 ∈ [openedFirst,closedAt 21600 0] :=
    List.mem_cons_of_mem _ List.mem_cons_self
  intro ends
  obtain ⟨ps,s',p',ran⟩ := ends
  exact exactStuck rfl fast member late ps ran

def Timing.gap (t : Timing) (a b : Op) : Int64 :=
  t.scale (.ofInt (recordedAt b.info - returnedAt a.info))

theorem Timing.Scales.gap (scales : t.Scales) (a b : Op) : -2^62 ≤ (t.gap a b).toInt := by
  have small := recordedSmall a.info
  have small' := recordedSmall b.info
  have bound := a.info.dur.toUInt32.toNat_lt
  have back : returnedAt a.info = recordedAt a.info + a.info.dur.toUInt32.toNat := rfl
  have same : (Int64.ofInt (recordedAt b.info - returnedAt a.info)).toInt =
      recordedAt b.info - returnedAt a.info := by
    rw [← sinceReturn,Int64.ofInt_toInt]
  exact scales _ (by omega) (by omega)

theorem gapSince (t : Timing) (a b : Op) :
    t.scale (callTime b.info - (callTime a.info + durTime a.info)).toInt64 = t.gap a b := by
  rw [Timing.gap,← sinceReturn,Int64.ofInt_toInt]

/-- Between the return of a call and the next one passes the scaled time of the trace. -/
def Spaced (t : Timing) (a b : Op × Pace) : Prop :=
  Passed t (t.gap a.1 b.1).toInt (t.rdtsc (b.2.reads - 1)) (t.rdtsc a.2.reads)

theorem diffRun (mode : t.mode = .diff) (fast : 4 ≤ t.clockRate.toNat)
    (scales : t.Scales) {op : Op} {q : Pace} {ops : List Op}
    {ps : List Pace}
    (ran : pacedOps env t fuel ops (s,paceAfter t op.info q) = .ok (ps,s',p')) :
    ((op,q) :: ops.zip ps).IsChain (Spaced t) ∧ ps.length = ops.length := by
  induction ops generalizing op q s ps with
  | nil =>
    cases ran
    exact ⟨.singleton _,rfl⟩
  | cons o rest ih =>
    obtain ⟨q',qs,u,waited,_,rfl,others⟩ := pacedCons ran
    rw [paceBefore,mode] at waited
    simp only [paceAfter,mode] at waited
    rw [gapSince] at waited
    obtain ⟨same,due⟩ := pacedWaitAt fast (scales.gap op o) waited
    obtain ⟨chain,length⟩ := ih others
    refine ⟨.cons_cons due.passed chain,?_⟩
    rw [List.length_cons,List.length_cons,length]

/-- With -t diff no call is made earlier after the return of the one before it than in the
original run, scaled by the factor of the -s option. -/
theorem diffNeverEarly (mode : t.mode = .diff) (fast : 4 ≤ t.clockRate.toNat)
    (scales : t.Scales) {op : Op} {rest : List Op} {ps : List Pace}
    (ran : pacedReplicate env t fuel (op :: rest) (s,p) = .ok ((0,ps),s',p')) :
    ((op :: rest).zip ps).IsChain (Spaced t) ∧ ps.length = (op :: rest).length := by
  obtain ⟨u,_,all⟩ := pacedOkCons ran
  obtain ⟨q,qs,_,_,_,rfl,others⟩ := pacedCons all
  obtain ⟨chain,length⟩ := diffRun mode fast scales others
  exact ⟨chain,by rw [List.length_cons,List.length_cons,length]⟩

theorem diffNeverEarlyLater : (openedLater.zip
    [⟨0,0,0,25,3⟩,⟨10,0,0,75,10⟩]).IsChain (Spaced (steady .diff)) := by
  have ran : pacesOf (pacedReplicate replaying (steady .diff) 100 openedLater
      (State.start,.zero)) = .some (0,[⟨0,0,0,25,3⟩,⟨10,0,0,75,10⟩]) := by decide +kernel
  obtain ⟨s,p,same⟩ := pacesOfOk ran
  exact (diffNeverEarly rfl (by decide) (steadyScales .diff) same).1

end Runs
section Ticking
variable {env : Env} {t : Timing} {fuel : Nat} {s s' : State} {p p' : Pace}

variable {step : Nat}

def product (now base : UInt64) : Nat := ticks now base * 1000000 % 2^64

theorem dueProduct (fast : 4 ≤ t.clockRate.toNat) (micros : Int) (now base : UInt64) :
    DueAt t micros now base ↔ (micros - 60) * t.clockRate.toNat ≤ product now base := by
  have positive : (0 : Int) < t.clockRate.toNat := by omega
  have told : toldMicros t now base = product now base / t.clockRate.toNat := rfl
  rw [← Int.le_ediv_iff_mul_le positive,DueAt,told,Int.natCast_ediv]
  omega

theorem productCount (x : Nat) (base : UInt64) :
    product (UInt64.ofNat x) base = (2^64 - base.toNat + x) * 1000000 % 2^64 := by
  rw [product,ticks,UInt64.toNat_sub,UInt64.toNat_ofNat']
  omega

theorem productStep {start x y step unit wrap : Nat} (goes : x < y) (most : y ≤ x + step)
    (room : (start + x) * unit % wrap + step * unit < wrap) :
    (start + x) * unit % wrap + unit ≤ (start + y) * unit % wrap := by
  obtain ⟨more,rfl⟩ := Nat.exists_eq_add_of_lt goes
  have least : unit ≤ (more + 1) * unit := Nat.le_mul_of_pos_left unit (Nat.succ_pos more)
  have most : (more + 1) * unit ≤ step * unit := Nat.mul_le_mul_right unit (by omega)
  have apart : (start + (x + more + 1)) * unit = (start + x) * unit + (more + 1) * unit := by
    rw [← Nat.add_mul]
    congr 1
    omega
  rw [apart,← Nat.mod_add_mod,Nat.mod_eq_of_lt (show _ + (more + 1) * unit < wrap by omega)]
  omega

theorem productNext (clock : Ticking t step) {n : Nat} {base : UInt64}
    (room : product (t.rdtsc n) base + step * 1000000 < 2^64) :
    product (t.rdtsc n) base + 1000000 ≤ product (t.rdtsc (n + 1)) base := by
  have goes := clock.goes n
  have most := clock.most n
  rw [clock.reads,productCount] at room
  rw [clock.reads,clock.reads,productCount,productCount]
  exact productStep goes most room

def Bearable (t : Timing) (step : Nat) (micros : Int) : Prop :=
  (micros - 60) * t.clockRate.toNat + step * 1000000 ≤ 2^64

theorem waitDueEnds (clock : Ticking t step) (fast : 4 ≤ t.clockRate.toNat) {d : Int64}
    {base : UInt64} {reads : Nat} (low : -2^62 ≤ d.toInt) (bearable : Bearable t step d.toInt)
    (enough : (d.toInt - 60) * t.clockRate.toNat ≤
      product (t.rdtsc reads) base + fuel * 1000000) :
    ∃ reads', waitDue t (fuel + 1) d base reads = .ok reads' := by
  induction fuel generalizing reads with
  | zero =>
    have due : DueAt t d.toInt (t.rdtsc reads) base := by
      rw [dueProduct fast]
      omega
    rw [waitDue,if_neg ((dueExact fast low _ _).not.mpr (not_not.mpr due))]
    exact ⟨_,rfl⟩
  | succ fuel ih =>
    rw [waitDue]
    by_cases due : DueAt t d.toInt (t.rdtsc reads) base
    · rw [if_neg ((dueExact fast low _ _).not.mpr (not_not.mpr due))]
      exact ⟨_,rfl⟩
    · rw [if_pos ((dueExact fast low _ _).mpr due)]
      rw [dueProduct fast] at due
      unfold Bearable at bearable
      have room : product (t.rdtsc reads) base + step * 1000000 < 2^64 := by omega
      have next := productNext clock room
      exact ih (by omega)

theorem pacedWaitEnds (clock : Ticking t step) (fast : 4 ≤ t.clockRate.toNat) {d : Int64}
    {base : UInt64} (low : -2^62 ≤ d.toInt) (bearable : Bearable t step d.toInt)
    (enough : 2^45 < fuel) (p : Pace) :
    ∃ reads, pacedWait t fuel d base p = .ok { p with reads := reads } := by
  have rate : t.clockRate ≠ 0 := by
    intro zero
    rw [zero] at fast
    exact absurd fast (by decide)
  have last : fuel = fuel - 1 + 1 := by omega
  have reached : (d.toInt - 60) * t.clockRate.toNat ≤
      product (t.rdtsc p.reads) base + (fuel - 1 : Nat) * 1000000 := by
    unfold Bearable at bearable
    omega
  obtain ⟨reads,ends⟩ := waitDueEnds clock fast low bearable reached
  rw [← last] at ends
  rw [pacedWait,if_neg rate,ends]
  exact ⟨reads,rfl⟩

inductive Waits (t : Timing) (fuel : Nat) : Pace → List Op → Prop where
  | nil (p : Pace) : Waits t fuel p []
  | cons {p q : Pace} {op : Op} {rest : List Op} (waited : paceBefore t fuel op.info p = .ok q)
    (others : Waits t fuel (paceAfter t op.info q) rest) : Waits t fuel p (op :: rest)

theorem exactWaits (mode : t.mode = .exact) (clock : Ticking t step)
    (fast : 4 ≤ t.clockRate.toNat) (enough : 2^45 < fuel) {first : OpInfo} {ops : List Op}
    (call : p.firstCallOrig = callTime first)
    (bearable : ∀ o ∈ ops, Bearable t step (recordedAt o.info - recordedAt first)) :
    Waits t fuel p ops := by
  induction ops generalizing p with
  | nil => exact .nil p
  | cons op rest ih =>
    have since := sinceCall op.info first
    have small := recordedSmall op.info
    have small' := recordedSmall first
    have here := bearable op List.mem_cons_self
    rw [← since] at here
    obtain ⟨reads,ends⟩ : ∃ reads, pacedWait t fuel (callTime op.info - callTime first).toInt64
        p.counterFirst p =
        .ok { p with reads := reads } := pacedWaitEnds clock fast (by omega) here enough p
    have still : ∀ q, paceAfter t op.info q = q := by
      intro q
      rw [paceAfter,mode]
    refine .cons (by rw [paceBefore,mode,call]; exact ends) ?_
    rw [still]
    exact ih call fun o inside => bearable o (List.mem_cons_of_mem _ inside)

theorem diffWaits (mode : t.mode = .diff) (clock : Ticking t step) (scales : t.Scales)
    (fast : 4 ≤ t.clockRate.toNat) (enough : 2^45 < fuel) {op : Op} {q : Pace} {ops : List Op}
    (bearable : (op :: ops).IsChain fun a b => Bearable t step (t.gap a b).toInt) :
    Waits t fuel (paceAfter t op.info q) ops := by
  induction ops generalizing op q with
  | nil => exact .nil _
  | cons o rest ih =>
    obtain ⟨here,others⟩ := List.isChain_cons_cons.mp bearable
    obtain ⟨reads,ends⟩ : ∃ reads, pacedWait t fuel (t.gap op o)
        (paceAfter t op.info q).counterLast (paceAfter t op.info q) =
        .ok { paceAfter t op.info q with reads := reads } :=
      pacedWaitEnds clock fast (scales.gap op o) here enough (paceAfter t op.info q)
    have waited : paceBefore t fuel o.info (paceAfter t op.info q) =
        .ok { paceAfter t op.info q with reads := reads } := by
      rw [← gapSince] at ends
      simp only [paceBefore,paceAfter,mode] at ends ⊢
      exact ends
    exact .cons waited (ih others)

theorem pacedOpsSame {ops : List Op} (waits : Waits t fuel p ops) (s : State) :
    (pacedOps env t fuel ops (s,p)).map (fun done => done.2.1) =
      ((replicateOps env ops s).map Prod.snd).mapError .replay := by
  induction waits generalizing s with
  | nil p => rfl
  | @cons p q op rest waited others ih =>
    have before : onPace (paceBefore t fuel op.info) (s,p) = .ok (q,s,q) := by
      rw [onPace,waited]
    rw [pacedOps,Prog.bindOf before,replicateOps]
    cases replayed : replicateOp env op s with
    | error f =>
      have stops : onReplay (replicateOp env op) (s,q) = .error (.replay f) := by
        rw [onReplay,replayed]
      rw [Prog.bindRun,stops,Prog.bindRun,replayed]
      rfl
    | ok done =>
      have goes : onReplay (replicateOp env op) (s,q) = .ok ((),done.2,q) := by
        rw [onReplay,replayed]
      have moves : onPace (fun p => .ok (paceAfter t op.info p)) (done.2,q) =
          .ok (paceAfter t op.info q,done.2,paceAfter t op.info q) := rfl
      rw [Prog.bindOf goes,Prog.bindOf moves,Prog.bindOf replayed,← ih]
      rw [Prog.bindRun]
      cases pacedOps env t fuel rest (done.2,paceAfter t op.info q) <;> rfl

theorem pacedSame {op : Op} {rest : List Op}
    (waits : Waits t fuel (paceBegin t op.info) (op :: rest)) (s : State) :
    (pacedReplicate env t fuel (op :: rest) (s,p)).map (fun done => (done.1.1,done.2.1)) =
      (replicate env (op :: rest) s).mapError .replay := by
  rw [pacedReplicate,replicate]
  cases began : replicateInit env op.info.pid s with
  | error f =>
    have stops : onReplay (replicateInit env op.info.pid) (s,p) = .error (.replay f) := by
      rw [onReplay,began]
    rw [Prog.bindRun,stops,Prog.bindRun,began]
    rfl
  | ok done =>
    have goes : onReplay (replicateInit env op.info.pid) (s,p) = .ok (done.1,done.2,p) := by
      rw [onReplay,began]
    rw [Prog.bindOf goes,Prog.bindOf began]
    by_cases zero : done.1 = 0
    · have moves : onPace (fun _ => .ok (paceBegin t op.info)) (done.2,p) =
          .ok (paceBegin t op.info,done.2,paceBegin t op.info) := rfl
      have same := @pacedOpsSame env t fuel (paceBegin t op.info) (op :: rest) waits done.2
      rw [if_neg (not_not.mpr zero),if_neg (not_not.mpr zero),Prog.bindOf moves,Prog.bindRun,
        Prog.bindRun]
      cases paced : pacedOps env t fuel (op :: rest) (done.2,paceBegin t op.info) with
      | error e =>
        cases plain : replicateOps env (op :: rest) done.2 with
        | error f =>
          rw [paced,plain] at same
          cases same
          rfl
        | ok r =>
          rw [paced,plain] at same
          cases same
      | ok r =>
        cases plain : replicateOps env (op :: rest) done.2 with
        | error f =>
          rw [paced,plain] at same
          cases same
        | ok r' =>
          rw [paced,plain] at same
          have left : r.2.1 = r'.2 := by
            simpa only [Except.map,Except.mapError,Except.ok.injEq] using same
          simp only [pure,Except.map,Except.mapError,left]
    · rw [if_pos zero,if_pos zero]
      rfl

/-- With -t exact the waits do not change what is replayed: when the trace is not too long for the
product of the ticks, the run comes to the end, or to the fault, of the one that does not wait. -/
theorem exactSame (mode : t.mode = .exact) (clock : Ticking t step)
    (fast : 4 ≤ t.clockRate.toNat) (enough : 2^45 < fuel) {op : Op} {rest : List Op}
    (bearable : ∀ o ∈ op :: rest,
      Bearable t step (recordedAt o.info - recordedAt op.info)) (s : State) (p : Pace) :
    (pacedReplicate env t fuel (op :: rest) (s,p)).map (fun done => (done.1.1,done.2.1)) =
      (replicate env (op :: rest) s).mapError .replay :=
  pacedSame (exactWaits mode clock fast enough rfl bearable) s

theorem exactSameLater : (pacedReplicate replaying (steady .exact) (2^46) openedLater
      (State.start,.zero)).map (fun done => (done.1.1,done.2.1)) =
    (replicate replaying openedLater State.start).mapError .replay := by
  have bearable : ∀ o ∈ openedLater,
      Bearable (steady .exact) 25 (recordedAt o.info - recordedAt openedFirst.info) := by
    unfold Bearable
    decide
  exact exactSame rfl (steadyTicking .exact) (by decide) (by decide) bearable _ _

/-- The same with -t diff, when no gap between two records is too long. -/
theorem diffSame (mode : t.mode = .diff) (clock : Ticking t step) (scales : t.Scales)
    (fast : 4 ≤ t.clockRate.toNat) (enough : 2^45 < fuel) {op : Op} {rest : List Op}
    (began : Bearable t step (t.scale 0).toInt)
    (bearable : (op :: rest).IsChain fun a b => Bearable t step (t.gap a b).toInt)
    (s : State) (p : Pace) :
    (pacedReplicate env t fuel (op :: rest) (s,p)).map (fun done => (done.1.1,done.2.1)) =
      (replicate env (op :: rest) s).mapError .replay := by
  have low : -2^62 ≤ (t.scale 0).toInt := scales 0 (by decide) (by decide)
  obtain ⟨reads,ends⟩ : ∃ reads, pacedWait t fuel (t.scale 0) (t.rdtsc 1) (paceBegin t op.info) =
      .ok { paceBegin t op.info with reads := reads } :=
    pacedWaitEnds clock fast low began enough (paceBegin t op.info)
  have waited : paceBefore t fuel op.info (paceBegin t op.info) =
      .ok { paceBegin t op.info with reads := reads } := by
    simp only [paceBefore,mode]
    have zero : (callTime op.info - (paceBegin t op.info).lastCallOrig).toInt64 = 0 := by
      rw [paceBegin,UInt64.sub_self]
      rfl
    rw [zero]
    exact ends
  exact pacedSame (.cons waited (diffWaits mode clock scales fast enough bearable)) s

theorem diffSameLater : (pacedReplicate replaying (steady .diff) (2^46) openedLater
      (State.start,.zero)).map (fun done => (done.1.1,done.2.1)) =
    (replicate replaying openedLater State.start).mapError .replay := by
  have began : Bearable (steady .diff) 25 ((steady .diff).scale 0).toInt := by
    unfold Bearable
    decide
  have bearable : openedLater.IsChain fun a b =>
      Bearable (steady .diff) 25 ((steady .diff).gap a b).toInt := by
    unfold Bearable
    exact .cons_cons (by decide) (.singleton _)
  exact diffSame rfl (steadyTicking .diff) (steadyScales .diff) (by decide) (by decide) began
    bearable _ _

end Ticking
end IoApps
