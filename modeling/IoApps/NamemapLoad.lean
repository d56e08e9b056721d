import IoApps.Namemap
import IoApps.StraceChunks

/-! The files of ignored and of mapped names: how they are read, and for which mapping files
every name is mapped as the file says. -/
namespace IoApps
open Lib (Bytes)
open Strace (fgets newline quote blank ended endedSome chunks fgetsEnded)

def hashSign : UInt8 := 0x23

def isalnum (c : UInt8) : Bool :=
  (0x30 ≤ c && c ≤ 0x39) || (0x41 ≤ c && c ≤ 0x5a) || (0x61 ≤ c && c ≤ 0x7a)

def CName.drop (line : CName) (n : Nat) : CName where
  bytes := line.bytes.drop n
  noNul := fun member => line.noNul (List.mem_of_mem_drop member)
  fits := Nat.lt_of_le_of_lt (by simp) line.fits

theorem dropBytes (line : CName) (n : Nat) : (line.drop n).bytes = line.bytes.drop n := rfl

-- What a copy loop takes: the bytes before `stop`, and at most `size` of them.
def CName.upto (line : CName) (stop : UInt8) (size : Nat) : Bytes :=
  (line.bytes.takeWhile (· != stop)).take size

theorem uptoClean (line : CName) (stop : UInt8) (size : Nat) : 0 ∉ line.upto stop size :=
  fun member => line.noNul ((List.takeWhile_prefix _).subset (List.mem_of_mem_take member))

def namemapLoadItem (line : CName) (size : Nat) : Option (CName × CName) :=
  if line.bytes.head? = some quote then
    let rest := line.drop 1
    let name := rest.upto quote (size - 1)
    if rest.bytes.drop name.length = [] then none
    else if fits : name.length + 1 < MAX_STRING then
      some (⟨name,uptoClean rest quote (size - 1),by omega⟩,rest.drop (name.length + 1))
    else none
  else if line.bytes.head?.any fun c => isalnum c || c == slash then
    let name := line.upto blank size
    if fits : name.length < MAX_STRING then
      some (⟨name,uptoClean line blank size,fits⟩,line.drop name.length)
    else none
  else none

def namemapLoadItems (line : CName) (size : Nat) : Option (CName × CName) := do
  let (oldName,c) ← namemapLoadItem line size
  let (newName,c) ← namemapLoadItem (c.drop 1) size
  if c.bytes ≠ [] then none else some (oldName,newName)

-- The newline is looked for in the first MAX_STRING bytes.
def lineText (line : Bytes) : Option CName :=
  let text := line.takeWhile fun b => b != 0 && b != newline
  if fits : text.length < MAX_STRING then
    if (line.drop text.length).head? = some newline then
      some ⟨text,fun member => by simpa using List.mem_takeWhile_imp member,fits⟩
    else none
  else none

def namemapMapping (line : Bytes) : Option NamemapItem := do
  let text ← lineText line
  let (oldName,newName) ← namemapLoadItems text MAX_STRING
  some ⟨oldName,newName⟩

def namemapIgnores : Nat → Bytes → List CName → Int32 × List CName
  | 0,_,igns => (0,igns)
  | fuel + 1,f,igns =>
    if f = [] then (0,igns)
    else if (fgets MAX_STRING f).1.head? = some hashSign then
      namemapIgnores fuel (fgets MAX_STRING f).2 igns
    else
      match lineText (fgets MAX_STRING f).1 with
      | none => (-1,igns)
      | some name => namemapIgnores fuel (fgets MAX_STRING f).2 (igns ++ [name])

def mappingSize : Nat := 2 * MAX_STRING + 2

-- Nothing is returned where an assertion of the table fails.
def namemapMappings : Nat → Bytes → HashTable NamemapItem → Option (Int32 × HashTable NamemapItem)
  | 0,_,map => some (0,map)
  | fuel + 1,f,map =>
    if f = [] then some (0,map)
    else if (fgets mappingSize f).1.head? = some hashSign then
      namemapMappings fuel (fgets mappingSize f).2 map
    else
      match namemapMapping (fgets mappingSize f).1 with
      | none => some (-1,map)
      | some item =>
        (map.insert htOpsNamemap item.oldName item).bind
          (namemapMappings fuel (fgets mappingSize f).2)

-- A file is none where no name is given, and its content is none where it cannot be opened.
def namemapInit (fnmatch : Bytes → Bytes → Int32) (ifile mfile : Option (Option Bytes)) :
    Option (Int32 × Namemap) :=
  let start : Namemap := ⟨[],.init HASH_TABLE_SIZE,fnmatch⟩
  if ifile = some none ∨ mfile = some none then some (-1,start)
  else
    let ifile := ifile.join.getD []
    let mfile := mfile.join.getD []
    match namemapIgnores ifile.length ifile [] with
    | (rv,igns) =>
      if rv ≠ 0 then some (rv,{ start with igns := igns })
      else
        (namemapMappings mfile.length mfile start.map).map fun r =>
          (r.1,{ start with igns := igns, map := r.2 })

section Chunks
variable {size : Nat}

theorem fgetsLess (big : 2 ≤ size) {f : Bytes} (some : f ≠ []) :
    (fgets size f).2.length < f.length := by
  have pos := List.length_pos_of_ne_nil some
  rw [fgets,List.length_drop]
  omega

theorem chunksFuel (big : 2 ≤ size) {fuel : Nat} {f : Bytes} (enough : f.length ≤ fuel) :
    chunks size fuel f = chunks size f.length f := by
  induction fuel using Nat.strong_induction_on generalizing f with
  | _ fuel ih =>
    cases f with
    | nil => cases fuel <;> rfl
    | cons x f =>
      cases fuel with
      | zero => cases enough
      | succ fuel =>
        have less := fgetsLess big (List.cons_ne_nil x f)
        rw [List.length_cons] at enough less
        have one := ih fuel (Nat.lt_succ_self fuel) (f := (fgets size (x :: f)).2) (by omega)
        have two := ih f.length (by omega) (f := (fgets size (x :: f)).2) (by omega)
        rw [List.length_cons,chunks,chunks,one,two]

theorem chunksCons (big : 2 ≤ size) {f : Bytes} (some : f ≠ []) :
    chunks size f.length f =
      (fgets size f).1 :: chunks size (fgets size f).2.length (fgets size f).2 := by
  have less := fgetsLess big some
  obtain ⟨n,long⟩ : ∃ n, f.length = n + 1 := ⟨f.length - 1,by omega⟩
  rw [long,chunks,if_neg some,chunksFuel big (by omega)]

theorem chunksEnded (big : 2 ≤ size) {text : Bytes} (whole : newline ∉ text) (rest : Bytes) :
    chunks size (ended text ++ rest).length (ended text ++ rest) =
      chunks size (ended text).length (ended text) ++ chunks size rest.length rest := by
  induction h : text.length using Nat.strong_induction_on generalizing text with
  | _ n ih =>
    have some : ended text ++ rest ≠ [] :=
      List.append_ne_nil_of_left_ne_nil (endedSome text) rest
    have one := fgetsEnded size whole rest
    have two := fgetsEnded size whole []
    rw [List.append_nil] at two
    rw [chunksCons big some,chunksCons big (endedSome text),one,two]
    split
    · rfl
    · rename_i long
      have later := ih (text.drop (size - 1)).length (by rw [List.length_drop]; omega)
        (fun member => whole (List.mem_of_mem_drop member)) rfl
      simp only [List.append_nil,later,List.cons_append]

end Chunks

section Table
variable {h h' : HashTable NamemapItem} {items : List NamemapItem}

structure Inserted (h : HashTable NamemapItem) (items : List NamemapItem) : Prop where
  entries : h.entries = HASH_TABLE_SIZE
  found : ∀ name, h.find htOpsNamemap name = some (items.find? fun item => item.oldName = name)

theorem htHashStrInside (entries : Nat) (some : 0 < entries) (key : CName) :
    ∃ c, htHashStr entries key = Option.some c ∧ c < entries :=
  ⟨_,rfl,Nat.mod_lt _ some⟩

theorem chainNamed (h : HashTable NamemapItem) (entries : h.entries = HASH_TABLE_SIZE)
    (key : CName) : ∃ c, h.chain htOpsNamemap key = some c := by
  obtain ⟨c,hashed,inside⟩ := htHashStrInside h.entries
    (by rw [entries]; decide) key
  refine ⟨c,?_⟩
  have same : htOpsNamemap.hash h.entries key = some c := hashed
  rw [HashTable.chain,same,Option.filter_some,decide_eq_true inside]
  rfl

theorem filledInit : Inserted (.init HASH_TABLE_SIZE) [] := by
  refine ⟨rfl,fun name => ?_⟩
  obtain ⟨c,hashed⟩ := chainNamed (.init HASH_TABLE_SIZE) rfl name
  rw [HashTable.find,hashed]
  rfl

theorem filledInsert (filled : Inserted h items) (item : NamemapItem) :
    ∃ h', h.insert htOpsNamemap item.oldName item = some h' ∧ Inserted h' (items ++ [item]) := by
  obtain ⟨c,hashed⟩ := chainNamed h filled.entries item.oldName
  have inserted : h.insert htOpsNamemap item.oldName item = some (h.append c item) := by
    rw [HashTable.insert,hashed]
    rfl
  refine ⟨_,inserted,(HashTable.insertEntries inserted).trans filled.entries,fun name => ?_⟩
  rw [List.find?_append]
  by_cases mine : item.oldName = name
  · subst mine
    have match_ : htOpsNamemap.compare item.oldName item = true := decide_eq_true rfl
    rw [HashTable.findInsert match_ inserted,filled.found]
    simp
  · have other : ¬ htOpsNamemap.compare name item = true := by
      simpa [htOpsNamemap] using mine
    rw [HashTable.findInsertOther other inserted,filled.found]
    simp [mine]

end Table

section Reading

def mappingLines (lines : List Bytes) : List Bytes :=
  lines.filter fun line => line.head? != some hashSign

theorem mappingsRun {h : HashTable NamemapItem} {items : List NamemapItem}
    (filled : Inserted h items)
    (fuel : Nat) (f : Bytes) :
    if ∀ line ∈ mappingLines (chunks mappingSize fuel f), (namemapMapping line).isSome then
      ∃ h', namemapMappings fuel f h = some (0,h') ∧
        Inserted h' (items ++
          (mappingLines (chunks mappingSize fuel f)).filterMap namemapMapping)
    else ∃ h', namemapMappings fuel f h = some (-1,h') := by
  induction fuel generalizing f h items with
  | zero => simpa [chunks,mappingLines,namemapMappings] using filled
  | succ fuel ih =>
    rw [chunks,namemapMappings]
    by_cases none : f = []
    · simpa [none,mappingLines] using filled
    · simp only [none,if_false]
      by_cases comment : (fgets mappingSize f).1.head? = some hashSign
      · have skipped (lines : List Bytes) :
            mappingLines ((fgets mappingSize f).1 :: lines) = mappingLines lines :=
          List.filter_cons_of_neg (by simp [comment])
        rw [if_pos comment,skipped]
        exact ih filled _
      · have kept (lines : List Bytes) : mappingLines ((fgets mappingSize f).1 :: lines) =
            (fgets mappingSize f).1 :: mappingLines lines :=
          List.filter_cons_of_pos (by simpa using comment)
        rw [if_neg comment,kept]
        cases read : namemapMapping (fgets mappingSize f).1 with
        | none => simp [read]
        | some item =>
          obtain ⟨h',inserted,filled'⟩ := filledInsert filled item
          have rest := ih filled' (fgets mappingSize f).2
          rw [List.append_assoc,List.singleton_append] at rest
          simpa [read,inserted] using rest

def firstNamed (items : List NamemapItem) (name : CName) : CName :=
  match items.find? fun item => item.oldName = name with
  | none => name
  | some item => item.newName

theorem initRun (fnmatch : Bytes → Bytes → Int32) (f : Bytes) :
    if ∀ line ∈ mappingLines (chunks mappingSize f.length f), (namemapMapping line).isSome then
      ∃ nm, namemapInit fnmatch none (some (some f)) = some (0,nm) ∧
        ∀ name, namemapGetName nm name = some (firstNamed
          ((mappingLines (chunks mappingSize f.length f)).filterMap namemapMapping) name)
    else ∃ nm, namemapInit fnmatch none (some (some f)) = some (-1,nm) := by
  have run := mappingsRun filledInit f.length f
  have start (rv : Int32) (map : HashTable NamemapItem)
      (ran : namemapMappings f.length f (.init HASH_TABLE_SIZE) = some (rv,map)) :
      namemapInit fnmatch none (some (some f)) = some (rv,⟨[],map,fnmatch⟩) := by
    unfold namemapInit
    simp only [reduceCtorEq,Option.some.injEq,or_self,if_false,Option.join_none,Option.getD_none,
      List.length_nil,namemapIgnores,ne_eq,not_true_eq_false,Option.join_some,Option.getD_some,ran,
      Option.map_some]
  split at run
  · rename_i read
    obtain ⟨map,ran,filled⟩ := run
    rw [if_pos read]
    refine ⟨_,start 0 map ran,fun name => ?_⟩
    rw [List.nil_append] at filled
    have found := filled.found name
    rw [namemapGetName,firstNamed]
    simp only [List.any_nil,Bool.false_eq_true,if_false,found]
    cases List.find? _ _ <;> rfl
  · rename_i unread
    obtain ⟨map,ran⟩ := run
    rw [if_neg unread]
    exact ⟨_,start (-1) map ran⟩

theorem lineTextLong {line text rest : Bytes} (split : line = text ++ rest) (clean : 0 ∉ text)
    (whole : newline ∉ text) (long : MAX_STRING ≤ text.length) : lineText line = none := by
  have inside : ∀ b ∈ text, (b != 0 && b != newline) = true := by
    intro b member
    have one : b ≠ 0 := fun zero => clean (zero ▸ member)
    have two : b ≠ newline := fun ends => whole (ends ▸ member)
    simp [one,two]
  unfold lineText
  refine dif_neg ?_
  rw [split,List.takeWhile_append_of_pos inside,List.length_append]
  omega

theorem lineTextEnded (name : CName) (whole : newline ∉ name.bytes) :
    lineText (ended name.bytes) = some name := by
  have inside : ∀ b ∈ name.bytes, (b != 0 && b != newline) = true := by
    intro b member
    have one : b ≠ 0 := fun zero => name.noNul (zero ▸ member)
    have two : b ≠ newline := fun ends => whole (ends ▸ member)
    simp [one,two]
  have run : (ended name.bytes).takeWhile (fun b => b != 0 && b != newline) = name.bytes :=
    Lib.takeWhileBreak inside fun c first => by
      cases first
      rfl
  unfold lineText
  simp only [run,name.fits,dif_pos]
  rw [if_pos (by simp [ended])]

theorem loadQuoted (line : CName) {name : CName} {more : Bytes}
    (text : line.bytes = quote :: (name.bytes ++ quote :: more)) (plain : quote ∉ name.bytes) :
    ∃ c, namemapLoadItem line MAX_STRING = some (name,c) ∧ c.bytes = more := by
  have fits := line.fits
  rw [text,List.length_cons,List.length_append,List.length_cons] at fits
  have behind : (line.drop 1).bytes = name.bytes ++ quote :: more := by
    rw [dropBytes,text]
    rfl
  have taken : (line.drop 1).upto quote (MAX_STRING - 1) = name.bytes := by
    have run : (name.bytes ++ quote :: more).takeWhile (· != quote) = name.bytes :=
      Lib.takeWhileBreak (Lib.runStops plain) fun c first => by
        cases first
        rfl
    rw [CName.upto,behind,run,List.take_of_length_le (by omega)]
  refine ⟨(line.drop 1).drop (name.bytes.length + 1),?_,?_⟩
  · unfold namemapLoadItem
    rw [if_pos (by rw [text]; rfl)]
    simp only [taken,behind,List.drop_left]
    rw [if_neg (List.cons_ne_nil _ _),dif_pos (by omega)]
  · rw [dropBytes,behind,← List.drop_drop,List.drop_left]
    rfl

end Reading

inductive MapLine where
  | pair (oldName newName : CName)
  | comment (text : Bytes)
  deriving DecidableEq, Repr

namespace MapLine

def text : MapLine → Bytes
  | pair oldName newName =>
    quote :: (oldName.bytes ++ quote :: blank :: quote :: (newName.bytes ++ [quote]))
  | comment text => hashSign :: text

def names : MapLine → Option (CName × CName)
  | pair oldName newName => some (oldName,newName)
  | comment _ => none

def pieces (e : MapLine) : List Bytes :=
  chunks mappingSize (ended e.text).length (ended e.text)

def loads : MapLine → List NamemapItem
  | pair oldName newName => [⟨oldName,newName⟩]
  | comment text => (mappingLines (comment text).pieces).filterMap namemapMapping

end MapLine

def mappingFile (entries : List MapLine) : Bytes := entries.flatMap fun e => ended e.text

def pairs (entries : List MapLine) : List (CName × CName) := entries.filterMap MapLine.names

structure Mappable (name : CName) : Prop where
  some : name.bytes ≠ []
  short : name.bytes.length ≤ 510
  unquoted : quote ∉ name.bytes
  whole : newline ∉ name.bytes

structure MapFile (entries : List MapLine) : Prop where
  names : ∀ p ∈ pairs entries, Mappable p.1 ∧ Mappable p.2
  distinct : ((pairs entries).map Prod.fst).Nodup
  comments : ∀ text, MapLine.comment text ∈ entries → newline ∉ text

/-- The file is loaded, and afterwards each name is mapped as it says. -/
def Honoured (fnmatch : Bytes → Bytes → Int32) (entries : List MapLine) : Prop :=
  ∃ nm, namemapInit fnmatch none (some (some (mappingFile entries))) = some (0,nm) ∧
    (∀ p ∈ pairs entries, namemapGetName nm p.1 = some p.2) ∧
    ∀ name, name ∉ (pairs entries).map Prod.fst → namemapGetName nm name = some name

def askedName (entries : List MapLine) (name : CName) : CName :=
  match (pairs entries).find? fun p => p.1 = name with
  | none => name
  | some p => p.2

/-- The newline of each pair is among the first MAX_STRING bytes, and the pieces of a comment that
do not begin like one are mappings. -/
structure Readable (entries : List MapLine) : Prop where
  short : ∀ p ∈ pairs entries, p.1.bytes.length + p.2.bytes.length + 5 < MAX_STRING
  comments : ∀ text, MapLine.comment text ∈ entries →
    ∀ line ∈ mappingLines (MapLine.comment text).pieces, (namemapMapping line).isSome

structure FileFits (entries : List MapLine) : Prop extends Readable entries where
  agrees : ∀ before item after, entries.flatMap MapLine.loads = before ++ item :: after →
    (∀ other ∈ before, other.oldName ≠ item.oldName) →
    item.newName = askedName entries item.oldName

section Pair
variable {oldName newName : CName}

theorem pairWhole (old : Mappable oldName) (new : Mappable newName) :
    newline ∉ (MapLine.pair oldName newName).text ∧ 0 ∉ (MapLine.pair oldName newName).text := by
  have one := oldName.noNul
  have two := newName.noNul
  have three := old.whole
  have four := new.whole
  have quoted : newline ≠ quote ∧ newline ≠ blank ∧ (0 : UInt8) ≠ quote ∧ (0 : UInt8) ≠ blank := by
    decide
  simp only [MapLine.text,List.mem_cons,List.mem_append,not_or]
  simp only [one,two,three,four,quoted,not_false_eq_true,List.not_mem_nil,and_self]

theorem pairLength : (MapLine.pair oldName newName).text.length =
    oldName.bytes.length + newName.bytes.length + 5 := by
  simp only [MapLine.text,List.length_cons,List.length_append,List.length_nil]
  omega

theorem pairLong (old : Mappable oldName) (new : Mappable newName)
    (long : MAX_STRING ≤ oldName.bytes.length + newName.bytes.length + 5) :
    ∃ line ∈ mappingLines (MapLine.pair oldName newName).pieces, namemapMapping line = none := by
  obtain ⟨whole,clean⟩ := pairWhole old new
  rw [← pairLength] at long
  have read := fgetsEnded mappingSize whole []
  rw [List.append_nil] at read
  have first : (fgets mappingSize (ended (MapLine.pair oldName newName).text)).1.head? =
      some quote := by
    rw [read]
    split <;> rfl
  refine ⟨(fgets mappingSize (ended (MapLine.pair oldName newName).text)).1,?_,?_⟩
  · rw [MapLine.pieces,chunksCons (by decide) (endedSome _),mappingLines,
      List.filter_cons_of_pos (by rw [first]; decide)]
    exact List.mem_cons_self
  · have none : lineText (fgets mappingSize (ended (MapLine.pair oldName newName).text)).1 =
        none := by
      rw [read]
      split
      · exact lineTextLong rfl clean whole long
      · rename_i longer
        refine lineTextLong (List.append_nil _).symm
          (fun member => clean (List.mem_of_mem_take member))
          (fun member => whole (List.mem_of_mem_take member)) ?_
        have size : mappingSize = 2 * MAX_STRING + 2 := rfl
        rw [List.length_take]
        omega
    rw [namemapMapping,none]
    rfl

theorem pairMapping (old : Mappable oldName) (new : Mappable newName)
    (short : oldName.bytes.length + newName.bytes.length + 5 < MAX_STRING) :
    mappingLines (MapLine.pair oldName newName).pieces =
        [ended (MapLine.pair oldName newName).text] ∧
      namemapMapping (ended (MapLine.pair oldName newName).text) = some ⟨oldName,newName⟩ := by
  obtain ⟨whole,clean⟩ := pairWhole old new
  rw [← pairLength] at short
  constructor
  · have size : mappingSize = 2 * MAX_STRING + 2 := rfl
    have read := fgetsEnded mappingSize whole []
    rw [List.append_nil,if_pos (by omega)] at read
    rw [MapLine.pieces,chunksCons (by decide) (endedSome _),read,mappingLines,
      List.filter_cons_of_pos (by rfl)]
    rfl
  · have found : lineText (ended (MapLine.pair oldName newName).text) =
        some ⟨(MapLine.pair oldName newName).text,clean,short⟩ :=
      lineTextEnded ⟨(MapLine.pair oldName newName).text,clean,short⟩ whole
    obtain ⟨c,first,rest⟩ := loadQuoted ⟨(MapLine.pair oldName newName).text,clean,short⟩ rfl
      old.unquoted
    have behind : (c.drop 1).bytes = quote :: (newName.bytes ++ quote :: []) := by
      rw [dropBytes,rest]
      rfl
    obtain ⟨d,second,done⟩ := loadQuoted (c.drop 1) behind new.unquoted
    have both : namemapLoadItems ⟨(MapLine.pair oldName newName).text,clean,short⟩ MAX_STRING =
        some (oldName,newName) := by
      unfold namemapLoadItems
      simp only [first,second,done,bind,Option.bind,ne_eq,not_true_eq_false,if_false]
    unfold namemapMapping
    simp only [found,both,bind,Option.bind]

end Pair

section File
variable {entries : List MapLine} (file : MapFile entries)
include file

theorem pairNames {oldName newName : CName} (member : MapLine.pair oldName newName ∈ entries) :
    (oldName,newName) ∈ pairs entries ∧ Mappable oldName ∧ Mappable newName := by
  have inside : (oldName,newName) ∈ pairs entries := List.mem_filterMap.mpr ⟨_,member,rfl⟩
  exact ⟨inside,file.names _ inside⟩

theorem lineWhole {e : MapLine} (member : e ∈ entries) : newline ∉ e.text := by
  cases e with
  | pair oldName newName =>
    obtain ⟨_,old,new⟩ := pairNames file member
    exact (pairWhole old new).1
  | comment text =>
    have other : newline ≠ hashSign := by decide
    exact fun inside => (List.mem_cons.mp inside).elim other (file.comments text member)

theorem filePieces : chunks mappingSize (mappingFile entries).length (mappingFile entries) =
    entries.flatMap MapLine.pieces := by
  have whole := fun e member => lineWhole file (e := e) member
  clear file
  induction entries with
  | nil => rfl
  | cons e entries ih =>
    have front : mappingFile (e :: entries) = ended e.text ++ mappingFile entries := rfl
    rw [front,chunksEnded (by decide) (whole e List.mem_cons_self),
      ih fun e member => whole e (List.mem_cons_of_mem _ member)]
    rfl

theorem fileLines : mappingLines
      (chunks mappingSize (mappingFile entries).length (mappingFile entries)) =
    entries.flatMap fun e => mappingLines e.pieces := by
  rw [filePieces file,mappingLines,List.filter_flatMap]
  rfl

theorem piecesRead : (∀ line ∈ entries.flatMap fun e => mappingLines e.pieces,
      (namemapMapping line).isSome) ↔ Readable entries := by
  constructor
  · intro all
    have each {e : MapLine} (member : e ∈ entries) {line : Bytes}
        (inside : line ∈ mappingLines e.pieces) : (namemapMapping line).isSome :=
      all line (List.mem_flatMap.mpr ⟨e,member,inside⟩)
    refine ⟨fun p member => ?_,fun text member line inside => each member inside⟩
    obtain ⟨e,there,same⟩ := List.mem_filterMap.mp member
    cases e with
    | comment text => cases same
    | pair oldName newName =>
      cases same
      obtain ⟨_,old,new⟩ := pairNames file there
      by_contra long
      obtain ⟨line,inside,none⟩ := pairLong old new (Nat.not_lt.mp long)
      have read := each there inside
      rw [none] at read
      cases read
  · intro readable line member
    obtain ⟨short,comments⟩ := readable
    obtain ⟨e,there,inside⟩ := List.mem_flatMap.mp member
    cases e with
    | comment text => exact comments text there line inside
    | pair oldName newName =>
      obtain ⟨named,old,new⟩ := pairNames file there
      obtain ⟨only,read⟩ := pairMapping old new (short _ named)
      rw [only] at inside
      rw [List.mem_singleton.mp inside,read]
      rfl

theorem piecesLoad (short : ∀ p ∈ pairs entries,
      p.1.bytes.length + p.2.bytes.length + 5 < MAX_STRING) :
    (entries.flatMap fun e => mappingLines e.pieces).filterMap namemapMapping =
      entries.flatMap MapLine.loads := by
  rw [List.filterMap_flatMap]
  refine List.flatMap_congr fun e member => ?_
  cases e with
  | comment text => rfl
  | pair oldName newName =>
    obtain ⟨named,old,new⟩ := pairNames file member
    obtain ⟨only,read⟩ := pairMapping old new (short _ named)
    rw [only,List.filterMap_cons_some read]
    rfl

theorem askedPair {p : CName × CName} (member : p ∈ pairs entries) :
    askedName entries p.1 = p.2 := by
  rw [askedName]
  split
  · rename_i none
    exact absurd (decide_eq_true rfl) (List.find?_eq_none.mp none p member)
  · rename_i q first
    have same : q.1 = p.1 := by simpa using List.find?_some first
    rw [List.inj_on_of_nodup_map file.distinct (List.mem_of_find?_eq_some first) member same]

omit file in
theorem askedOther {name : CName} (absent : name ∉ (pairs entries).map Prod.fst) :
    askedName entries name = name := by
  rw [askedName]
  split
  · rfl
  · rename_i q first
    have same : q.1 = name := by simpa using List.find?_some first
    exact absurd (List.mem_map.mpr ⟨q,List.mem_of_find?_eq_some first,same⟩) absent

theorem honouredAsked (fnmatch : Bytes → Bytes → Int32) : Honoured fnmatch entries ↔
    ∃ nm, namemapInit fnmatch none (some (some (mappingFile entries))) = some (0,nm) ∧
      ∀ name, namemapGetName nm name = some (askedName entries name) := by
  constructor
  · intro honoured
    obtain ⟨nm,ran,listed,others⟩ := honoured
    refine ⟨nm,ran,fun name => ?_⟩
    by_cases inside : name ∈ (pairs entries).map Prod.fst
    · obtain ⟨p,member,rfl⟩ := List.mem_map.mp inside
      rw [askedPair file member]
      exact listed p member
    · rw [askedOther inside]
      exact others name inside
  · intro all
    obtain ⟨nm,ran,named⟩ := all
    refine ⟨nm,ran,fun p member => ?_,fun name absent => ?_⟩
    · rw [named,askedPair file member]
    · rw [named,askedOther absent]

omit file in
theorem firstAsked : (∀ name, firstNamed (entries.flatMap MapLine.loads) name =
      askedName entries name) ↔
    ∀ before item after, entries.flatMap MapLine.loads = before ++ item :: after →
      (∀ other ∈ before, other.oldName ≠ item.oldName) →
      item.newName = askedName entries item.oldName := by
  constructor
  · intro all before item after split first
    have found : (entries.flatMap MapLine.loads).find?
        (fun other => other.oldName = item.oldName) = some item := by
      rw [List.find?_eq_some_iff_append]
      exact ⟨decide_eq_true rfl,before,after,split,fun other member => by
        simpa using first other member⟩
    rw [← all,firstNamed,found]
  · intro each name
    rw [firstNamed]
    split
    · rename_i none
      refine (askedOther fun inside => ?_).symm
      obtain ⟨p,member,rfl⟩ := List.mem_map.mp inside
      obtain ⟨e,there,same⟩ := List.mem_filterMap.mp member
      cases e with
      | comment text => cases same
      | pair oldName newName =>
        cases same
        have loaded : (⟨oldName,newName⟩ : NamemapItem) ∈ entries.flatMap MapLine.loads :=
          List.mem_flatMap.mpr ⟨_,there,List.mem_singleton.mpr rfl⟩
        exact List.find?_eq_none.mp none _ loaded (decide_eq_true rfl)
    · rename_i item first
      obtain ⟨same,before,after,split,ahead⟩ := List.find?_eq_some_iff_append.mp first
      have here : item.oldName = name := of_decide_eq_true same
      subst here
      exact each before item after split fun other member => by simpa using ahead other member

theorem initReadable (fnmatch : Bytes → Bytes → Int32) (readable : Readable entries) :
    ∃ nm, namemapInit fnmatch none (some (some (mappingFile entries))) = some (0,nm) ∧
      ∀ name, namemapGetName nm name = some (firstNamed (entries.flatMap MapLine.loads) name) := by
  have run := initRun fnmatch (mappingFile entries)
  rw [fileLines file,if_pos ((piecesRead file).mpr readable),piecesLoad file readable.short] at run
  exact run

theorem initUnreadable (fnmatch : Bytes → Bytes → Int32) (unreadable : ¬ Readable entries) :
    ¬ ∃ nm, namemapInit fnmatch none (some (some (mappingFile entries))) = some (0,nm) := by
  have run := initRun fnmatch (mappingFile entries)
  rw [fileLines file,if_neg (mt (piecesRead file).mp unreadable)] at run
  obtain ⟨nm,ran⟩ := run
  intro success
  obtain ⟨nm',again⟩ := success
  rw [ran] at again
  have zero : (-1 : Int32) = 0 := congrArg Prod.fst (Option.some.inj again)
  exact absurd zero (by decide)

end File

/-- A mapping file is honoured exactly when its pairs are short enough and no comment is cut where
what is left of it does something. -/
theorem mapsHonoured (fnmatch : Bytes → Bytes → Int32) {entries : List MapLine}
    (file : MapFile entries) : Honoured fnmatch entries ↔ FileFits entries := by
  rw [honouredAsked file]
  constructor
  · intro honoured
    obtain ⟨nm,ran,named⟩ := honoured
    by_cases readable : Readable entries
    · obtain ⟨nm',again,first⟩ := initReadable file fnmatch readable
      rw [ran] at again
      cases again
      refine ⟨readable,firstAsked.mp fun name => ?_⟩
      exact Option.some.inj ((first name).symm.trans (named name))
    · exact absurd ⟨nm,ran⟩ (initUnreadable file fnmatch readable)
  · intro fits
    obtain ⟨nm,ran,first⟩ := initReadable file fnmatch fits.toReadable
    exact ⟨nm,ran,fun name => by rw [first,firstAsked.mpr fits.agrees]⟩

theorem commentWhole {text : Bytes} (whole : newline ∉ text)
    (short : text.length + 2 < mappingSize) :
    mappingLines (MapLine.comment text).pieces = [] := by
  have other : newline ≠ hashSign := by decide
  have line : newline ∉ (MapLine.comment text).text :=
    fun inside => (List.mem_cons.mp inside).elim other whole
  have fits : (MapLine.comment text).text.length + 1 < mappingSize := short
  have read := fgetsEnded mappingSize line []
  rw [List.append_nil,if_pos fits] at read
  rw [MapLine.pieces,chunksCons (by decide) (endedSome _),read,mappingLines,
    List.filter_cons_of_neg (by simp [MapLine.text,ended])]
  rfl

theorem plainFits {entries : List MapLine} (file : MapFile entries)
    (short : ∀ p ∈ pairs entries, p.1.bytes.length + p.2.bytes.length + 5 < MAX_STRING)
    (comments : ∀ text, MapLine.comment text ∈ entries → text.length + 2 < mappingSize) :
    FileFits entries := by
  have skipped {text : Bytes} (member : MapLine.comment text ∈ entries) :
      mappingLines (MapLine.comment text).pieces = [] :=
    commentWhole (file.comments text member) (comments text member)
  refine ⟨⟨short,fun text member line inside => ?_⟩,fun before item after split _ => ?_⟩
  · rw [skipped member] at inside
    cases inside
  · have loaded : item ∈ entries.flatMap MapLine.loads := by
      rw [split]
      simp
    obtain ⟨e,member,inside⟩ := List.mem_flatMap.mp loaded
    cases e with
    | comment text =>
      rw [MapLine.loads,skipped member] at inside
      cases inside
    | pair oldName newName =>
      rw [List.mem_singleton.mp inside]
      exact (askedPair file (pairNames file member).1).symm

def lettersName (c : UInt8) (n : Nat) (real : c ≠ 0) (fits : n < MAX_STRING) : CName where
  bytes := List.replicate n c
  noNul := fun member => real (List.eq_of_mem_replicate member).symm
  fits := by rw [List.length_replicate]; exact fits

def longPair : List MapLine :=
  [.pair (lettersName 0x61 254 (by decide) (by decide))
    (lettersName 0x62 253 (by decide) (by decide))]

theorem longPairFile : MapFile longPair := by
  have letters {c : UInt8} {n : Nat} (real : c ≠ 0) (fits : n < MAX_STRING) (some : n ≠ 0)
      (short : n ≤ 510) (plain : c ≠ quote ∧ c ≠ newline) :
      Mappable (lettersName c n real fits) := by
    refine ⟨?_,?_,?_,?_⟩
    · exact fun empty => some (List.replicate_eq_nil_iff c |>.mp empty)
    · rw [lettersName,List.length_replicate]
      exact short
    · exact fun member => plain.1 (List.eq_of_mem_replicate member).symm
    · exact fun member => plain.2 (List.eq_of_mem_replicate member).symm
  refine ⟨fun p member => ?_,List.nodup_singleton _,fun text member => ?_⟩
  · rw [List.mem_singleton.mp member]
    exact ⟨letters (by decide) (by decide) (by decide) (by decide) (by decide),
      letters (by decide) (by decide) (by decide) (by decide) (by decide)⟩
  · rw [longPair,List.mem_singleton] at member
    cases member

theorem longPairRefused : ¬ ∀ (fnmatch : Bytes → Bytes → Int32) (entries : List MapLine),
    MapFile entries → Honoured fnmatch entries := by
  intro all
  obtain ⟨nm,ran,_⟩ := all (fun _ _ => FNM_NOMATCH) longPair longPairFile
  refine initUnreadable longPairFile _ (fun readable => ?_) ⟨nm,ran⟩
  have short := readable.short _ (List.mem_singleton.mpr rfl)
  simp only [lettersName,List.length_replicate] at short
  exact absurd short (by decide)

def shortPairs : List MapLine :=
  [.comment [0x20,0x78],.pair ⟨[0x61,0x20,0x62],by decide,by decide⟩ ⟨[0x63],by decide,by decide⟩,
    .pair ⟨[0x63],by decide,by decide⟩ ⟨[0x64],by decide,by decide⟩]

theorem shortComment {text : Bytes} (member : MapLine.comment text ∈ shortPairs) :
    text = [0x20,0x78] := by
  simpa [shortPairs] using member

theorem shortPairsFile : MapFile shortPairs := by
  refine ⟨fun p member => ?_,by decide,fun text member => ?_⟩
  · rcases List.mem_cons.mp member with first | later
    · rw [first]
      exact ⟨⟨by decide,by decide,by decide,by decide⟩,⟨by decide,by decide,by decide,by decide⟩⟩
    · rw [List.mem_singleton.mp later]
      exact ⟨⟨by decide,by decide,by decide,by decide⟩,⟨by decide,by decide,by decide,by decide⟩⟩
  · rw [shortComment member]
    decide

theorem shortPairsHonoured : Honoured (fun _ _ => FNM_NOMATCH) shortPairs := by
  have short : ∀ p ∈ pairs shortPairs, p.1.bytes.length + p.2.bytes.length + 5 < MAX_STRING := by
    decide
  refine (mapsHonoured _ shortPairsFile).mpr (plainFits shortPairsFile short fun text member => ?_)
  rw [shortComment member]
  decide

end IoApps
