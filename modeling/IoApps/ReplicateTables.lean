import IoApps.ReplicateReach
import Mathlib.Data.List.Nodup

/-! The tables of the processes as searchable maps: stdin is put under the key of stdout, where
no search for it looks, and nothing ever moves it. -/
namespace IoApps
open Lib (Arena Prog)

/-- Every item sits in the chain of its own descriptor, and no descriptor has two items. -/
structure Searchable (h : HashTable FdItem) : Prop where
  placed : ∀ c i, c < h.entries → i ∈ h.entry c → h.chain htOpsFdItem i.oldFd = some c
  distinct : (h.items.map FdItem.oldFd).Nodup

theorem Searchable.finds {h : HashTable FdItem} (searchable : Searchable h) {i : FdItem}
    (there : i ∈ h.items) : h.find htOpsFdItem i.oldFd = some (some i) := by
  obtain ⟨c,inside,member⟩ := HashTable.memItems.mp there
  have hashed := searchable.placed c i inside member
  cases search : (h.entry c).find? (htOpsFdItem.compare i.oldFd) with
  | none =>
    have missed := List.find?_eq_none.mp search i member
    exact absurd (show htOpsFdItem.compare i.oldFd i = true by simp [htOpsFdItem]) missed
  | some j =>
    have first : h.find htOpsFdItem i.oldFd = some (some j) := by
      rw [HashTable.find,hashed]
      exact congrArg some search
    obtain ⟨found,same⟩ := HashTable.findMem first
    have one : j = i := List.inj_on_of_nodup_map searchable.distinct found there
      (by simpa [htOpsFdItem] using same)
    rw [first,one]

def AllSearchable (s : State) : Prop :=
  ∀ p ∈ s.fdMappings.items, ∀ t h, p.ht = some t → s.tables[t]? = some h → Searchable h

structure Misfiled (s : State) : Prop where
  linked : ∃ p ∈ s.fdMappings.items, p.ht = some 0
  table : ∃ h, s.tables[0]? = some h ∧ 1 < h.entries ∧ ∃ i ∈ h.entry 1, i.oldFd = 0

theorem Misfiled.notSearchable {s : State} (misfiled : Misfiled s) : ¬ AllSearchable s := by
  intro all
  obtain ⟨p,member,first⟩ := misfiled.linked
  obtain ⟨h,table,inside,i,there,zero⟩ := misfiled.table
  have hashed := (all p member 0 h first table).placed 1 i inside there
  have chain : h.chain htOpsFdItem i.oldFd = some 0 := by
    simp [HashTable.chain,htOpsFdItem,htHashInt,zero,Nat.lt_of_succ_lt inside]
  rw [chain] at hashed
  exact absurd hashed (by simp)

theorem Misfiled.of {s s' : State} (misfiled : Misfiled s)
    (links : s'.fdMappings = s.fdMappings) {t : Nat} {h h' : HashTable FdItem}
    (table : s.tables[t]? = some h) (entries : h'.entries = h.entries)
    (stays : ∀ i ∈ h.entry 1, i.oldFd = 0 → i ∈ h'.entry 1)
    (tables : s'.tables = s.tables.set t h') : Misfiled s' where
  linked := links ▸ misfiled.linked
  table := by
    obtain ⟨g,first,inside,i,there,zero⟩ := misfiled.table
    rw [tables]
    by_cases here : t = 0
    · subst here
      cases Option.some.inj (first.symm.trans table)
      have bound : 0 < s.tables.length := by
        by_contra beyond
        rw [List.getElem?_eq_none (by omega)] at table
        simp at table
      exact ⟨h',List.getElem?_set_self bound,entries ▸ inside,i,stays i there zero,zero⟩
    · exact ⟨g,by rw [List.getElem?_set_ne here]; exact first,inside,i,there,zero⟩

theorem insertStays {h h' : HashTable FdItem} {k : Int32} {new : FdItem}
    (inserted : h.insert htOpsFdItem k new = some h') :
    h'.entries = h.entries ∧ ∀ i ∈ h.entry 1, i.oldFd = 0 → i ∈ h'.entry 1 := by
  obtain ⟨c,_,rfl⟩ := Option.map_eq_some_iff.mp inserted
  refine ⟨rfl,fun i there _ => ?_⟩
  by_cases here : 1 = c
  · subst here
    simp [HashTable.append,there]
  · simpa [HashTable.append,Function.update_of_ne here] using there

theorem removeStays {h h' : HashTable FdItem} {k : Int32}
    (removed : h.remove htOpsFdItem k = some h') :
    h'.entries = h.entries ∧ ∀ i ∈ h.entry 1, i.oldFd = 0 → i ∈ h'.entry 1 := by
  obtain ⟨c,hashed,rfl⟩ := Option.map_eq_some_iff.mp removed
  refine ⟨rfl,fun i there zero => ?_⟩
  by_cases here : 1 = c
  · subst here
    have other : ¬ htOpsFdItem.compare k i = true := by
      intro same
      have eq : i.oldFd = k := by simpa [htOpsFdItem] using same
      subst eq
      rw [zero] at hashed
      simp [HashTable.chain,htOpsFdItem,htHashInt] at hashed
    simpa using (List.mem_eraseP_of_neg other).mpr there
  · simpa [Function.update_of_ne here] using there

theorem Misfiled.put {s s' : State} {t : Nat} {k fd counted : Int32} {m : FdMap}
    (misfiled : Misfiled s) (put : Put s t k fd counted m s') : Misfiled s' := by
  obtain ⟨table,inserted,_⟩ := put
  exact misfiled.of rfl table (insertStays inserted).1 (insertStays inserted).2 rfl

theorem misfiledEdit {env : Env} {ok : Allowed} {s s' : State} (edit : Edit env ok s s')
    (misfiled : Misfiled s) : Misfiled s' := by
  cases edit with
  | logged | openFailed | probed | simmed | openNumber | seeked | closeFailed =>
    exact ⟨misfiled.linked,misfiled.table⟩
  | linked inserted =>
    obtain ⟨p,member,first⟩ := misfiled.linked
    exact ⟨⟨p,(HashTable.insertItems inserted).mem_iff.mpr (List.mem_cons_of_mem _ member),first⟩,
      misfiled.table⟩
  | placed origin parents put =>
    obtain ⟨tables,_⟩ := origin.same
    exact Misfiled.put ⟨origin.links ▸ misfiled.linked,tables ▸ misfiled.table⟩ put
  | tableAdded copies =>
    obtain ⟨h,first,rest⟩ := misfiled.table
    have inside := (List.getElem?_eq_some_iff.mp first).1
    exact ⟨misfiled.linked,h,by rw [List.getElem?_append_left inside]; exact first,rest⟩
  | copied copies there live put => exact misfiled.put put
  | closed table found live release deleted removed =>
    have stays := removeStays removed
    cases release with
    | untracked | kept | simulated | closed => exact misfiled.of rfl table stays.1 stays.2 rfl
  | aliased careful live stored valid table inserted used =>
    exact misfiled.of rfl table (insertStays inserted).1 (insertStays inserted).2 rfl

theorem Began.misfiled {env : Env} {pid : Int32} {s : State} (began : Began env pid s) :
    Misfiled s := by
  obtain ⟨mappings,a,b,c,d,_,_,_,inserted,rfl,put₀,put₁,put₂,_,_,_,_,_,_,rfl⟩ := began.puts
  have first : Misfiled b := by
    obtain ⟨table,into,_⟩ := put₀
    cases Option.some.inj (show some (HashTable.init HASH_TABLE_SIZE) = some _ from table)
    cases Option.some.inj (show some _ = some _ from into)
    refine ⟨⟨⟨pid,some 0⟩,(HashTable.insertItems inserted).mem_iff.mpr List.mem_cons_self,rfl⟩,
      _,rfl,?_,⟨_,0,_⟩,List.mem_singleton.mpr rfl,rfl⟩
    exact (by decide : 1 < HASH_TABLE_SIZE)
  have full := (first.put put₁).put put₂
  exact ⟨full.linked,full.table⟩

/-- No state that is reached has searchable tables. -/
theorem tablesNeverSearchable {env : Env} {pid : Int32} {s : State}
    (reached : Reached env anyOp pid s) : ¬ AllSearchable s := by
  have misfiled : Misfiled s := reached.keeps .any Misfiled
    (fun _ began => began.misfiled) (fun _ _ _ _ => anyPermits ..) (fun _ _ => misfiledEdit)
  exact misfiled.notSearchable

theorem tablesNeverSearchableClone : ∃ s, Reached simulating anyOp 7 s ∧ ¬ AllSearchable s := by
  obtain ⟨s,ran⟩ := Option.isSome_iff_exists.mp (show ((initialised simulating 7).bind
    (runOps simulating anyOp
      [opened 7 "/f" 3,.clone ⟨0,8,blankInfo 7⟩,duplicated 8 3 0])).isSome = true
    by decide +kernel)
  exact ⟨s,.run ran,tablesNeverSearchable (.run ran)⟩

theorem stdinMisfiled : ¬ ∀ env pid s, Reached env anyOp pid s → AllSearchable s := by
  intro all
  obtain ⟨s,ran⟩ := Option.isSome_iff_exists.mp
    (show (initialised simulating 7).isSome = true by decide +kernel)
  exact (initBegan ran).misfiled.notSearchable (all simulating 7 s (.init ran))

end IoApps
