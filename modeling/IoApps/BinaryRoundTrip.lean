import IoApps.BinaryLoad

/-! Reading back what was saved, whole or cut off anywhere. A rmdir record is saved under
the tag of mkdir and never comes back; every other kind does. -/
namespace IoApps.Binary
open Lib Lib.Reader

theorem codeNotEof (t : OpType) : t.code.toUInt8 ≠ 255 := tagNotEof (tagOfCode t)

theorem loadItem (o : Op) (kept : o.type ≠ .rmdir) (rest : Bytes) (list : List OpItem) :
    binGetItems (binSaveItem o ++ rest) list = binGetItems rest (list ++ [o.item]) := by
  obtain ⟨reader,hc,written⟩ := itemWritten o kept
  rw [tagWritten o kept,List.cons_append,loadStep,if_neg (codeNotEof _)]
  simp only [tagOfCode,bind,Option.bind_some,hc,written]

theorem loadItems (saved : List Op) (kept : ∀ o ∈ saved, o.type ≠ .rmdir) (rest : Bytes)
    (list : List OpItem) : binGetItems (binSaveItems saved ++ rest) list =
      binGetItems rest (list ++ saved.map Op.item) := by
  induction saved generalizing list with
  | nil => simp [binSaveItems]
  | cons o saved ih =>
    have later : ∀ x ∈ saved, x.type ≠ .rmdir := fun x hx => kept x (List.mem_cons_of_mem _ hx)
    simp only [binSaveItems,List.flatMap_cons,List.append_assoc,List.map_cons] at ih ⊢
    rw [loadItem o (kept o List.mem_cons_self),ih later]
    simp

theorem loadSaved (saved : List Op) (kept : ∀ o ∈ saved, o.type ≠ .rmdir) (list : List OpItem) :
    binGetItems (binSaveItems saved) list = (list ++ saved.map Op.item,.returned 0) := by
  have h := loadItems saved kept [] list
  rwa [List.append_nil,loadEmpty] at h

def Yields {α : Type} (r : Reader α) (p : α → Prop) : Prop :=
  ∀ raw value rest, r raw = .ok value rest → p value

theorem pureYields {α : Type} {p : α → Prop} {value : α} (h : p value) :
    Yields (pure value : Reader α) p := by
  intro raw other rest e
  rw [pureRun] at e
  cases e
  exact h

theorem bindYields {α β : Type} {r : Reader α} {f : α → Reader β} {p : β → Prop}
    (h : ∀ a, Yields (f a) p) : Yields (r >>= f) p := by
  intro raw value rest e
  obtain ⟨a,mid,_,hb⟩ := bindSource e
  exact h a mid value rest hb

theorem caseYields {t reader} (h : binCase t = some reader) :
    Yields reader (fun item => item.type = if t = .rmdir then .mkdir else t) := by
  cases t <;> cases h
  case socket | close | clone | unlink | rmdir | stat | mkdir | access | write | read | lseek
      | «open» | pwrite | pread | pipe | dup | dup2 | dup3 | sendfile | llseek =>
    repeat' first | exact pureYields rfl | refine bindYields fun _ => ?_

theorem loopKeeps (fuel : Nat) (raw : Bytes) (list : List OpItem)
    (h : ∀ item ∈ list, item.type ≠ .rmdir) :
    ∀ item ∈ (binGetLoop fuel raw list).1, item.type ≠ .rmdir := by
  induction fuel generalizing raw list with
  | zero => exact h
  | succ fuel ih =>
    simp only [binGetLoop]
    split
    · exact h
    · split
      · exact h
      · rename_i reader hr
        obtain ⟨t,_,hc⟩ := Option.bind_eq_some_iff.mp hr
        split
        · rename_i item rest e
          apply ih
          intro x hx
          rcases List.mem_append.mp hx with old | new
          · exact h x old
          · rw [List.mem_singleton.mp new,caseYields hc _ _ _ e]
            split
            · decide
            · assumption
        · exact h
        · exact h

/-- A list comes back as it was exactly when it holds no rmdir. -/
theorem roundTripExact (saved : List Op) :
    binGetItems (binSaveItems saved) [] = (saved.map Op.item,.returned 0) ↔
      ∀ o ∈ saved, o.type ≠ .rmdir := by
  constructor
  · intro same o member removed
    have clean := loopKeeps ((binSaveItems saved).length+1) (binSaveItems saved) [] (by simp)
    rw [← binGetItems,same] at clean
    exact clean o.item (List.mem_map.mpr ⟨o,member,rfl⟩) removed
  · intro kept
    simpa using loadSaved saved kept []

def oneRmdir : Op := .rmdir ⟨⟨[47,97],by decide,by decide⟩,0,⟨7,5,⟨1,2⟩⟩⟩

theorem rmdirLost :
    ¬ binGetItems (binSaveItems [oneRmdir]) [] = ([oneRmdir.item],.returned 0) := by
  decide

def itemsWithin : List Op → Nat → List Op
  | [], _ => []
  | o :: rest, size =>
    if (binSaveItem o).length ≤ size then o :: itemsWithin rest (size - (binSaveItem o).length)
    else []

def AtBoundary (saved : List Op) (part : Bytes) : Prop :=
  ∃ k, part = binSaveItems (saved.take k)

theorem itemNonempty (o : Op) : 0 < (binSaveItem o).length := by
  cases o <;> simp [binSaveItem,binSaveWrite,binSaveRead,binSavePwrite,binSavePread,binSaveOpen,
    binSaveClose,binSaveUnlink,binSaveLseek,binSaveLlseek,binSaveClone,binSaveDup,binSaveMkdir,
    binSaveRmdir,binSavePipe,binSaveAccess,binSaveStat,binSaveSocket,binSaveSendfile,writeChar]

theorem boundaryCons (o : Op) (saved : List Op) (part : Bytes) :
    AtBoundary (o :: saved) (binSaveItem o ++ part) ↔ AtBoundary saved part := by
  constructor
  · rintro ⟨k,same⟩
    cases k with
    | zero =>
      have pos := itemNonempty o
      rw [(List.append_eq_nil_iff.mp same).1] at pos
      exact absurd pos (by simp)
    | succ k => exact ⟨k,by simpa [binSaveItems] using same⟩
  · rintro ⟨k,rfl⟩
    exact ⟨k+1,by simp [binSaveItems]⟩

theorem loadPartial (o : Op) (kept : o.type ≠ .rmdir) (part : Bytes)
    (inside : part <+: binSaveItem o)
    (different : part ≠ binSaveItem o) (some : part ≠ []) (list : List OpItem) :
    binGetItems part list = (list,.returned (-1)) := by
  obtain ⟨reader,hc,written⟩ := itemWritten o kept
  obtain ⟨fields,lay,shaped⟩ := caseShaped hc
  have body : Body fields (binSaveItem o).tail := by
    have h := written []
    obtain ⟨used,same,shape⟩ := shaped.taken _ _ _ h
    rw [List.append_nil,List.append_nil] at same
    rwa [same]
  cases part with
  | nil => contradiction
  | cons b part =>
    rw [tagWritten o kept] at inside different
    obtain ⟨rfl,rest⟩ := List.cons_prefix_cons.mp inside
    have cut := shaped.cut _ part body rest (fun same => different (by rw [same]))
    rw [loadStep,if_neg (codeNotEof _)]
    simp only [tagOfCode,bind,Option.bind_some,hc,cut]

theorem loadTruncated (saved : List Op) (part : Bytes) (list : List OpItem)
    (kept : ∀ o ∈ saved, o.type ≠ .rmdir) (inside : part <+: binSaveItems saved) :
    (binGetItems part list).1 = list ++ (itemsWithin saved part.length).map Op.item ∧
    (AtBoundary saved part → (binGetItems part list).2 = .returned 0) ∧
    (¬ AtBoundary saved part → (binGetItems part list).2 = .returned (-1)) := by
  induction saved generalizing part list with
  | nil =>
    have none : part = [] := List.prefix_nil.mp inside
    subst none
    refine ⟨by simp [loadEmpty,itemsWithin],fun _ => rfl,fun h => absurd ⟨0,rfl⟩ h⟩
  | cons o saved ih =>
    have first := kept o List.mem_cons_self
    have later : ∀ x ∈ saved, x.type ≠ .rmdir := fun x hx => kept x (List.mem_cons_of_mem _ hx)
    rw [binSaveItems,List.flatMap_cons,← binSaveItems] at inside
    rcases prefixSplit inside with ⟨early,different⟩ | ⟨tail,rfl,rest⟩
    · have shorter : part.length < (binSaveItem o).length := by
        rcases Nat.lt_or_ge part.length (binSaveItem o).length with lt | ge
        · exact lt
        · exact absurd (early.eq_of_length_le ge) different
      have none : itemsWithin (o :: saved) part.length = [] := by
        simp [itemsWithin,Nat.not_le.mpr shorter]
      by_cases empty : part = []
      · subst empty
        exact ⟨by rw [none]; simp [loadEmpty],fun _ => rfl,fun h => absurd ⟨0,rfl⟩ h⟩
      · have stops := loadPartial o first part early different empty list
        refine ⟨by rw [stops,none]; simp,fun edge => ?_,fun _ => by rw [stops]⟩
        obtain ⟨k,same⟩ := edge
        cases k with
        | zero => exact absurd same empty
        | succ k =>
          have len := congrArg List.length same
          simp [binSaveItems] at len
          omega
    · obtain ⟨items,edge,inner⟩ := ih tail (list ++ [o.item]) later rest
      rw [loadItem o first,boundaryCons]
      refine ⟨?_,edge,inner⟩
      rw [items]
      simp [itemsWithin]

theorem loadTruncatedPair :
    (binGetItems ((binSaveItems [.socket ⟨4,⟨7,5,⟨1,2⟩⟩⟩,.close ⟨4,0,⟨7,5,⟨3,4⟩⟩⟩]).take 30) []).1 =
      [] ++ (itemsWithin [.socket ⟨4,⟨7,5,⟨1,2⟩⟩⟩,.close ⟨4,0,⟨7,5,⟨3,4⟩⟩⟩] 30).map Op.item :=
  (loadTruncated [.socket ⟨4,⟨7,5,⟨1,2⟩⟩⟩,.close ⟨4,0,⟨7,5,⟨3,4⟩⟩⟩] _ [] (by decide)
    (List.take_prefix _ _)).1

end IoApps.Binary
