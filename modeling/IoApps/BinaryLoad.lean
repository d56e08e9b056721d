import IoApps.BinaryFormat

/-! Whole files. A run of the loader is a sequence of complete records followed by whatever
stopped it: the end of the file, a byte 0xFF, an unknown tag, a record cut short or a name
that does not fit. -/
namespace IoApps.Binary
open Lib Lib.Reader

def tagOf (b : UInt8) : Option OpType := OpType.ofCode (Int8.ofInt b.toNat)

def Record (raw : Bytes) : Prop :=
  ∃ b body t fields, raw = b :: body ∧ tagOf b = some t ∧ layout t = some fields ∧ Body fields body

inductive WellFormed : Bytes → Prop where
  | nil : WellFormed []
  | cons {record rest : Bytes} (first : Record record) (later : WellFormed rest) :
      WellFormed (record ++ rest)

theorem charOfByte (b : UInt8) : (Int8.ofInt b.toNat).toInt = EOF ↔ b = 255 := by
  have bound := b.toNat_lt
  have size : Int8.size = 256 := rfl
  have top : (255 : UInt8).toNat = 255 := rfl
  rw [Int8.toInt_ofInt,size,Int.bmod,EOF,← UInt8.toNat_inj,top]
  split <;> omega

theorem tagOfCode (t : OpType) : tagOf t.code.toUInt8 = some t := by
  cases t <;> decide

theorem eofTag : tagOf 255 = none := by decide

theorem tagNotEof {b t} (h : tagOf b = some t) : b ≠ 255 := by
  intro eq
  rw [eq,eofTag] at h
  contradiction

theorem caseLayout (t : OpType) : (binCase t).isSome = (layout t).isSome := by
  cases t <;> rfl

theorem caseOfLayout {t fields} (h : layout t = some fields) :
    ∃ reader, binCase t = some reader ∧ Shaped reader (Body fields) := by
  have known : (binCase t).isSome := by rw [caseLayout,h]; rfl
  obtain ⟨reader,hr⟩ := Option.isSome_iff_exists.mp known
  obtain ⟨other,ho,shaped⟩ := caseShaped hr
  rw [h] at ho
  cases ho
  exact ⟨reader,hr,shaped⟩

theorem restShorter {α : Type} {r : Reader α} {shape : Bytes → Prop} (hr : Shaped r shape)
    {raw value rest} (h : r raw = .ok value rest) : rest.length ≤ raw.length := by
  obtain ⟨used,same,_⟩ := hr.taken _ _ _ h
  rw [same,List.length_append]
  omega

theorem loopStable (fuel other : Nat) (raw : Bytes) (list : List OpItem)
    (enough : raw.length < fuel) (also : raw.length < other) :
    binGetLoop fuel raw list = binGetLoop other raw list := by
  induction fuel generalizing raw list other with
  | zero => omega
  | succ fuel ih =>
    cases other with
    | zero => omega
    | succ other =>
      cases raw with
      | nil => rfl
      | cons b raw =>
        simp only [binGetLoop]
        split
        · rfl
        · split
          · rfl
          · rename_i reader hr
            obtain ⟨t,_,hc⟩ := Option.bind_eq_some_iff.mp hr
            obtain ⟨fields,_,shaped⟩ := caseShaped hc
            cases e : reader (b :: raw).tail with
            | ok item rest =>
              have shorter := restShorter shaped e
              simp only [List.tail_cons,List.length_cons] at shorter enough also
              exact ih other rest (list ++ [item]) (by omega) (by omega)
            | failed => rfl
            | fault => rfl

theorem loadStep (b : UInt8) (raw : Bytes) (list : List OpItem) :
    binGetItems (b :: raw) list =
      if b = 255 then (list,.returned 0)
      else match tagOf b >>= binCase with
        | none => (list,.returned (-1))
        | some reader => match reader raw with
          | .ok item rest => binGetItems rest (list ++ [item])
          | .failed => (list,.returned (-1))
          | .fault => (list,.fault) := by
  rw [binGetItems,binGetLoop]
  simp only [getc,List.tail_cons,charOfByte]
  change (if b = 255 then _ else match tagOf b >>= binCase with | none => _ | some reader => _) = _
  split
  · rfl
  · cases hr : tagOf b >>= binCase with
    | none => rfl
    | some reader =>
      dsimp only
      obtain ⟨t,_,hc⟩ := Option.bind_eq_some_iff.mp hr
      obtain ⟨fields,_,shaped⟩ := caseShaped hc
      cases e : reader raw with
      | ok item rest =>
        have shorter := restShorter shaped e
        exact loopStable _ _ rest _ (by simp only [List.length_cons]; omega) (by omega)
      | failed => rfl
      | fault => rfl

theorem loadEmpty (list : List OpItem) : binGetItems [] list = (list,.returned 0) := rfl

theorem loadRecord {record : Bytes} (h : Record record) (rest : Bytes) (list : List OpItem) :
    ∃ item, binGetItems (record ++ rest) list = binGetItems rest (list ++ [item]) := by
  obtain ⟨b,body,t,fields,rfl,tag,lay,shape⟩ := h
  obtain ⟨reader,hr,shaped⟩ := caseOfLayout lay
  obtain ⟨item,taken⟩ := shaped.given body rest shape
  refine ⟨item,?_⟩
  simp only [List.cons_append,loadStep,if_neg (tagNotEof tag),tag,Option.bind_some,bind,hr,taken]

theorem loadWellFormed {raw : Bytes} (h : WellFormed raw) (rest : Bytes) (list : List OpItem) :
    ∃ items, binGetItems (raw ++ rest) list = binGetItems rest (list ++ items) := by
  induction h generalizing list with
  | nil => exact ⟨[],by simp⟩
  | cons first later ih =>
    obtain ⟨item,one⟩ := loadRecord first _ list
    obtain ⟨items,more⟩ := ih (list ++ [item])
    exact ⟨item :: items,by rw [List.append_assoc,one,more,List.append_assoc]; rfl⟩

theorem recordPrefix {a b x y : Bytes} (ha : Record a) (hb : Record b) (same : a ++ x = b ++ y) :
    x = y := by
  obtain ⟨c,body,t,fields,rfl,tag,lay,shape⟩ := ha
  obtain ⟨d,other,t',fields',rfl,tag',lay',shape'⟩ := hb
  obtain ⟨rfl,tails⟩ := List.cons.inj same
  rw [tag] at tag'
  cases tag'
  rw [lay] at lay'
  cases lay'
  obtain ⟨reader,_,shaped⟩ := caseOfLayout lay
  obtain ⟨v,hv⟩ := shaped.given body x shape
  obtain ⟨w,hw⟩ := shaped.given other y shape'
  have reread : reader (body ++ x) = .ok w y := by
    rw [show body ++ x = other ++ y from tails]
    exact hw
  rw [reread] at hv
  cases hv
  rfl

theorem recordNonempty {raw : Bytes} (h : Record raw) : ∃ b rest, raw = b :: rest ∧ b ≠ 255 ∧
    (tagOf b).isSome := by
  obtain ⟨b,body,t,_,rfl,tag,_,_⟩ := h
  exact ⟨b,body,rfl,tagNotEof tag,by rw [tag]; rfl⟩

/-- Records can be told apart without looking ahead, so a well-formed file keeps its
remainder well formed after any well-formed beginning. -/
theorem wellFormedRest {pre rest : Bytes} (hp : WellFormed pre) (h : WellFormed (pre ++ rest)) :
    WellFormed rest := by
  induction hp with
  | nil => exact h
  | @cons record tail first later ih =>
    apply ih
    rw [List.append_assoc] at h
    generalize whole : record ++ (tail ++ rest) = raw at h
    cases h with
    | nil =>
      obtain ⟨b,body,rfl,_⟩ := recordNonempty first
      simp at whole
    | @cons record' rest' first' later' =>
      rw [recordPrefix first first' whole]
      exact later'

def EndsEarly (raw : Bytes) : Prop :=
  ∃ pre rest, WellFormed pre ∧ raw = pre ++ 255 :: rest

def Overruns (raw : Bytes) : Prop :=
  ∃ pre b rest t, WellFormed pre ∧ raw = pre ++ b :: rest ∧ tagOf b = some t ∧ Named t ∧
    Overrun rest

theorem recordOfRead {b t reader raw item rest} (tag : tagOf b = some t)
    (hc : binCase t = some reader) (h : reader raw = .ok item rest) :
    ∃ body, raw = body ++ rest ∧ Record (b :: body) := by
  obtain ⟨fields,lay,shaped⟩ := caseShaped hc
  obtain ⟨body,same,shape⟩ := shaped.taken _ _ _ h
  exact ⟨body,same,b,body,t,fields,rfl,tag,lay,shape⟩

theorem EndsEarly.after {record rest : Bytes} (first : Record record) (h : EndsEarly rest) :
    EndsEarly (record ++ rest) := by
  obtain ⟨pre,tail,good,rfl⟩ := h
  exact ⟨record ++ pre,tail,.cons first good,by simp⟩

theorem Overruns.after {record rest : Bytes} (first : Record record) (h : Overruns rest) :
    Overruns (record ++ rest) := by
  obtain ⟨pre,b,tail,t,good,rfl,more⟩ := h
  exact ⟨record ++ pre,b,tail,t,.cons first good,by simp,more⟩

theorem loadSource (raw : Bytes) (list : List OpItem) :
    ((binGetItems raw list).2 = .returned 0 → WellFormed raw ∨ EndsEarly raw) ∧
    ((binGetItems raw list).2 = .fault → Overruns raw) := by
  induction size : raw.length using Nat.strongRecOn generalizing raw list with
  | ind n ih =>
  cases raw with
  | nil => exact ⟨fun _ => .inl .nil,fun h => by simp [loadEmpty] at h⟩
  | cons b raw =>
    rw [loadStep]
    by_cases eof : b = 255
    · rw [if_pos eof]
      exact ⟨fun _ => .inr ⟨[],raw,.nil,by rw [eof]; rfl⟩,fun h => by simp at h⟩
    rw [if_neg eof]
    cases tag : tagOf b with
    | none => exact ⟨fun h => by simp at h,fun h => by simp at h⟩
    | some t =>
      cases hc : binCase t with
      | none => simp [hc]
      | some reader =>
        simp only [bind,Option.bind_some,hc]
        cases e : reader raw with
        | failed => exact ⟨fun h => by simp at h,fun h => by simp at h⟩
        | fault =>
          obtain ⟨name,beyond⟩ := (caseFault hc raw).mp e
          exact ⟨fun h => by simp at h,fun _ => ⟨[],b,raw,t,.nil,rfl,tag,name,beyond⟩⟩
        | ok item rest =>
          obtain ⟨body,rfl,record⟩ := recordOfRead tag hc e
          have shorter : rest.length < n := by
            rw [← size,List.length_cons,List.length_append]
            omega
          obtain ⟨zero,fault⟩ := ih rest.length shorter rest (list ++ [item]) rfl
          refine ⟨fun h => ?_,fun h => (fault h).after record⟩
          rcases zero h with good | early
          · exact .inl (.cons record good)
          · exact .inr (early.after record)

theorem loadFully {raw : Bytes} (h : WellFormed raw) (list : List OpItem) :
    (binGetItems raw list).2 = .returned 0 := by
  obtain ⟨items,same⟩ := loadWellFormed h [] list
  rw [List.append_nil] at same
  rw [same,loadEmpty]

theorem loadEarly {raw : Bytes} (h : EndsEarly raw) (list : List OpItem) :
    (binGetItems raw list).2 = .returned 0 ∧ ¬ WellFormed raw := by
  obtain ⟨pre,rest,good,rfl⟩ := h
  obtain ⟨items,same⟩ := loadWellFormed good (255 :: rest) list
  refine ⟨by rw [same,loadStep,if_pos rfl],fun whole => ?_⟩
  generalize later : 255 :: rest = tail at whole
  cases wellFormedRest good whole with
  | nil => contradiction
  | cons first _ =>
    obtain ⟨b,body,rfl,different,_⟩ := recordNonempty first
    exact different (List.cons.inj later).1.symm

theorem loadOverrun {raw : Bytes} (h : Overruns raw) (list : List OpItem) :
    (binGetItems raw list).2 = .fault := by
  obtain ⟨pre,b,rest,t,good,rfl,tag,name,beyond⟩ := h
  obtain ⟨items,same⟩ := loadWellFormed good (b :: rest) list
  obtain ⟨fields,lay⟩ := name
  obtain ⟨reader,hc,_⟩ := caseOfLayout lay
  have faults : reader rest = .fault := (caseFault hc rest).mpr ⟨⟨fields,lay⟩,beyond⟩
  rw [same,loadStep,if_neg (tagNotEof tag)]
  simp only [tag,bind,Option.bind_some,hc,faults]

/-- Return code 0 means "complete records from first to last byte" exactly when no byte
0xFF stands where a tag is due and no name overruns its buffer. -/
theorem loadAcceptsFormat (raw : Bytes) (list : List OpItem) :
    (∃ code, (binGetItems raw list).2 = .returned code ∧ (code = 0 ↔ WellFormed raw)) ↔
      ¬ EndsEarly raw ∧ ¬ Overruns raw := by
  constructor
  · rintro ⟨code,exit,same⟩
    refine ⟨fun early => ?_,fun beyond => ?_⟩
    · obtain ⟨zero,bad⟩ := loadEarly early list
      rw [zero] at exit
      cases exit
      exact bad (same.mp rfl)
    · rw [loadOverrun beyond list] at exit
      contradiction
  · rintro ⟨whole,fits⟩
    obtain ⟨zero,fault⟩ := loadSource raw list
    cases exit : (binGetItems raw list).2 with
    | fault => exact absurd (fault exit) fits
    | returned code =>
      refine ⟨code,rfl,fun h => ?_,fun good => ?_⟩
      · subst h
        exact (zero exit).resolve_right whole
      · rw [loadFully good list] at exit
        exact (Exit.returned.inj exit).symm

/-- 0xFF is no tag, and the loader takes it for the end of the file. -/
theorem loadStopsAtFF : ¬ ∃ code, (binGetItems [255,0] []).2 = .returned code ∧
    (code = 0 ↔ WellFormed [255,0]) := by
  rintro ⟨code,exit,same⟩
  obtain ⟨zero,bad⟩ := loadEarly ⟨[],[0],.nil,rfl⟩ []
  rw [show [] ++ 255 :: [0] = ([255,0] : Bytes) from rfl] at zero bad
  rw [zero] at exit
  cases exit
  exact bad (same.mp rfl)

end IoApps.Binary
