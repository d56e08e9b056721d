import IoApps.Binary

/-! What the binary readers accept. The layout of every tag is stated apart from the code;
each reader takes exactly the strings of its layout and undoes its writer. -/
namespace IoApps.Binary
open Lib Lib.Reader

inductive Field where
  | int32 | int64 | name
  deriving DecidableEq, Repr

def NameBody (raw : Bytes) : Prop :=
  ∃ head text, raw = head ++ text ∧ head.length = 4 ∧ readLE head = text.length ∧
    text.length < MAX_STRING

def Field.Body : Field → Bytes → Prop
  | .int32 => (·.length = 4)
  | .int64 => (·.length = 8)
  | .name => NameBody

def Body : List Field → Bytes → Prop
  | [] => (· = [])
  | f :: fs => Both f.Body (Body fs)

def layout : OpType → Option (List Field)
  | .write | .read => some [.int32,.int64,.int64,.int32,.int32,.int32,.int32]
  | .pwrite | .pread => some [.int32,.int64,.int64,.int64,.int32,.int32,.int32,.int32]
  | .open => some [.name,.int32,.int32,.int32,.int32,.int32,.int32,.int32]
  | .close => some [.int32,.int32,.int32,.int32,.int32,.int32]
  | .unlink | .rmdir | .stat => some [.name,.int32,.int32,.int32,.int32,.int32]
  | .lseek => some [.int32,.int32,.int64,.int64,.int32,.int32,.int32,.int32]
  | .llseek => some [.int32,.int64,.int64,.int32,.int64,.int32,.int32,.int32,.int32]
  | .clone => some [.int32,.int32,.int32,.int32,.int32,.int32]
  | .mkdir | .access => some [.name,.int32,.int32,.int32,.int32,.int32,.int32]
  | .dup | .dup2 | .dup3 | .pipe =>
      some [.int32,.int32,.int32,.int32,.int32,.int32,.int32,.int32]
  | .socket => some [.int32,.int32,.int32,.int32,.int32]
  | .sendfile => some [.int32,.int32,.int64,.int64,.int64,.int32,.int32,.int32,.int32]
  | .creat | .unknown | .mmap | .fcntl => none

theorem int32Shaped : Shaped readInt32 (Field.Body .int32) := (takeShaped 4).map _
theorem int64Shaped : Shaped readInt64 (Field.Body .int64) := (takeShaped 8).map _
theorem modeShaped : Shaped readMode (Field.Body .int32) := (takeShaped 4).map _

theorem toSizeOfNat {n : Nat} (small : n < MAX_STRING) : toSize (Int32.ofNat n) = n := by
  have fits : n < 2^31 := by unfold MAX_STRING at small; omega
  rw [toSize,Int32.toInt_ofNat_of_lt fits]
  omega

theorem readInt32Run (head rest : Bytes) (four : head.length = 4) :
    readInt32 (head ++ rest) = .ok (UInt32.ofNat (readLE head)).toInt32 rest := by
  rw [readInt32,bindOk (four ▸ takeGiven head rest : takeBytes 4 (head ++ rest) = .ok head rest)]
  rfl

theorem buffGiven (text rest : Bytes) (small : text.length < MAX_STRING) :
    readBuff (Int32.ofNat text.length) (text ++ rest) = .ok (CName.copy text small) rest := by
  have fits : text.length < 2^31 := by unfold MAX_STRING at small; omega
  have rv : min (text ++ rest).length (toSize (Int32.ofNat text.length)) = text.length := by
    rw [toSizeOfNat small]; simp
  simp only [readBuff,rv,small,dif_pos,Int32.toInt_ofNat_of_lt fits,ne_eq,not_true,if_false,
    List.take_left',List.drop_left']

theorem buffCut (text part : Bytes) (small : text.length < MAX_STRING) (inside : part <+: text)
    (different : part ≠ text) : readBuff (Int32.ofNat text.length) part = .failed := by
  have fits : text.length < 2^31 := by unfold MAX_STRING at small; omega
  have shorter : part.length < text.length := by
    rcases Nat.lt_or_ge part.length text.length with lt | ge
    · exact lt
    · exact absurd (inside.eq_of_length_le ge) different
  have rv : min part.length (toSize (Int32.ofNat text.length)) = part.length := by
    rw [toSizeOfNat small]; omega
  have room : part.length < MAX_STRING := by omega
  have miss : (part.length : Int) ≠ text.length := by omega
  simp only [readBuff,rv,dif_pos room,Int32.toInt_ofNat_of_lt fits,if_pos miss]

theorem buffTaken {len : Int32} {raw rest : Bytes} {name : CName}
    (h : readBuff len raw = .ok name rest) :
    ∃ text, raw = text ++ rest ∧ (text.length : Int) = len.toInt ∧ text.length < MAX_STRING := by
  simp only [readBuff] at h
  split at h
  · rename_i small
    split at h
    · contradiction
    · rename_i same
      cases h
      refine ⟨raw.take (min raw.length (toSize len)),by simp,?_,?_⟩
      · simpa using (not_not.mp same)
      · simpa using small
  · split at h <;> contradiction

theorem wordOfInt {head : Bytes} {n : Nat} (four : head.length = 4)
    (same : (n : Int) = (UInt32.ofNat (readLE head)).toInt32.toInt) (small : n < MAX_STRING) :
    readLE head = n := by
  have bound := readLEBound head
  rw [four] at bound
  unfold MAX_STRING at small
  have value : (UInt32.ofNat (readLE head)).toInt32.toInt = (readLE head : Int).bmod (2^32) :=
    Int32.toInt_ofNat
  rw [value,Int.bmod] at same
  omega

theorem stringShaped : Shaped readString (Field.Body .name) where
  taken raw name rest h := by
    obtain ⟨len,mid,hl,hb⟩ := bindSource h
    obtain ⟨head,rfl,four⟩ := int32Shaped.taken _ _ _ hl
    rw [readInt32Run head mid four] at hl
    cases hl
    obtain ⟨text,rfl,same,small⟩ := buffTaken hb
    exact ⟨head ++ text,by rw [List.append_assoc],head,text,rfl,four,
      wordOfInt four same small,small⟩
  given used rest h := by
    obtain ⟨head,text,rfl,four,word,small⟩ := h
    refine ⟨CName.copy text small,?_⟩
    rw [List.append_assoc,readString,bindOk (readInt32Run head _ four),word]
    exact buffGiven text rest small
  cut used part h inside different := by
    obtain ⟨head,text,rfl,four,word,small⟩ := h
    rcases prefixSplit inside with ⟨early,ne⟩ | ⟨tail,rfl,late⟩
    · exact bindFailed (int32Shaped.cut head part four early ne)
    · rw [readString,bindOk (readInt32Run head tail four),word]
      exact buffCut text tail small late (fun same => different (by rw [same]))

theorem infoShaped : Shaped binReadInfo (Body [.int32,.int32,.int32,.int32]) :=
  int32Shaped.bind fun _ => int32Shaped.bind fun _ => int32Shaped.bind fun _ =>
    int32Shaped.bind fun _ => pureShaped _

theorem caseShaped {t reader} (h : binCase t = some reader) :
    ∃ fields, layout t = some fields ∧ Shaped reader (Body fields) := by
  cases t <;> cases h <;> refine ⟨_,rfl,?_⟩
  case write | read =>
    exact int32Shaped.bind fun _ => int64Shaped.bind fun _ => int64Shaped.bind fun _ =>
      infoShaped.map _
  case pwrite | pread =>
    exact int32Shaped.bind fun _ => int64Shaped.bind fun _ => int64Shaped.bind fun _ =>
      int64Shaped.bind fun _ => infoShaped.map _
  case «open» =>
    exact stringShaped.bind fun _ => int32Shaped.bind fun _ => modeShaped.bind fun _ =>
      int32Shaped.bind fun _ => infoShaped.map _
  case close => exact int32Shaped.bind fun _ => int32Shaped.bind fun _ => infoShaped.map _
  case unlink | rmdir | stat =>
    exact stringShaped.bind fun _ => int32Shaped.bind fun _ => infoShaped.map _
  case lseek =>
    exact int32Shaped.bind fun _ => int32Shaped.bind fun _ => int64Shaped.bind fun _ =>
      int64Shaped.bind fun _ => infoShaped.map _
  case llseek =>
    exact int32Shaped.bind fun _ => int64Shaped.bind fun _ => int64Shaped.bind fun _ =>
      int32Shaped.bind fun _ => int64Shaped.bind fun _ => infoShaped.map _
  case clone => exact modeShaped.bind fun _ => int32Shaped.bind fun _ => infoShaped.map _
  case mkdir | access =>
    exact stringShaped.bind fun _ => modeShaped.bind fun _ => int32Shaped.bind fun _ =>
      infoShaped.map _
  case dup | dup2 | dup3 =>
    exact int32Shaped.bind fun _ => int32Shaped.bind fun _ => int32Shaped.bind fun _ =>
      int32Shaped.bind fun _ => infoShaped.map _
  case pipe =>
    exact int32Shaped.bind fun _ => int32Shaped.bind fun _ => modeShaped.bind fun _ =>
      int32Shaped.bind fun _ => infoShaped.map _
  case socket => exact int32Shaped.bind fun _ => infoShaped.map _
  case sendfile =>
    exact int32Shaped.bind fun _ => int32Shaped.bind fun _ => int64Shaped.bind fun _ =>
      int64Shaped.bind fun _ => int64Shaped.bind fun _ => infoShaped.map _

def Overrun (raw : Bytes) : Prop :=
  ∃ head text, raw = head ++ text ∧ head.length = 4 ∧
    (MAX_STRING < min text.length (toSize (UInt32.ofNat (readLE head)).toInt32) ∨
      (UInt32.ofNat (readLE head)).toInt32.toInt = MAX_STRING ∧ MAX_STRING ≤ text.length)

theorem buffFault (len : Int32) (raw : Bytes) : readBuff len raw = .fault ↔
    MAX_STRING < min raw.length (toSize len) ∨
      len.toInt = MAX_STRING ∧ MAX_STRING ≤ raw.length := by
  have whole : len.toInt = MAX_STRING → toSize len = MAX_STRING := by
    intro h; rw [toSize,h]; rfl
  simp only [readBuff]
  split
  · split <;> simp <;> omega
  · split
    · simp; omega
    · simp; omega

theorem int32Safe : Safe readInt32 := (takeSafe 4).bind fun _ => pureSafe _
theorem int64Safe : Safe readInt64 := (takeSafe 8).bind fun _ => pureSafe _
theorem modeSafe : Safe readMode := (takeSafe 4).bind fun _ => pureSafe _
theorem infoSafe : Safe binReadInfo :=
  int32Safe.bind fun _ => int32Safe.bind fun _ => int32Safe.bind fun _ =>
    int32Safe.bind fun _ => pureSafe _

theorem stringFault (raw : Bytes) : readString raw = .fault ↔ Overrun raw := by
  constructor
  · intro h
    rw [readString,bindRun] at h
    cases e : readInt32 raw with
    | ok len mid =>
      obtain ⟨head,rfl,four⟩ := int32Shaped.taken _ _ _ e
      rw [readInt32Run head mid four] at e
      cases e
      rw [readInt32Run head mid four] at h
      exact ⟨head,mid,rfl,four,(buffFault _ _).mp h⟩
    | failed => simp [e] at h
    | fault => exact absurd e (int32Safe raw)
  · rintro ⟨head,text,rfl,four,beyond⟩
    rw [readString,bindOk (readInt32Run head text four)]
    exact (buffFault _ _).mpr beyond

def Named (t : OpType) : Prop := ∃ rest, layout t = some (.name :: rest)

theorem namedFault {t : OpType} {f : CName → Reader OpItem} (name : Named t)
    (safe : ∀ a, Safe (f a))
    (raw : Bytes) : (readString >>= f) raw = .fault ↔ Named t ∧ Overrun raw := by
  rw [bindFault safe,stringFault]
  simp [name]

theorem plainFault {t : OpType} {reader : Reader OpItem} (plain : ¬ Named t) (safe : Safe reader)
    (raw : Bytes) : reader raw = .fault ↔ Named t ∧ Overrun raw := by
  simp [safe raw,plain]

theorem caseFault {t reader} (h : binCase t = some reader) (raw : Bytes) :
    reader raw = .fault ↔ Named t ∧ Overrun raw := by
  cases t <;> cases h
  case «open» =>
    exact namedFault ⟨_,rfl⟩ (fun _ => int32Safe.bind fun _ => modeSafe.bind fun _ =>
      int32Safe.bind fun _ => infoSafe.bind fun _ => pureSafe _) raw
  case unlink | rmdir | stat =>
    exact namedFault ⟨_,rfl⟩
      (fun _ => int32Safe.bind fun _ => infoSafe.bind fun _ => pureSafe _) raw
  case mkdir | access =>
    exact namedFault ⟨_,rfl⟩ (fun _ => modeSafe.bind fun _ => int32Safe.bind fun _ =>
      infoSafe.bind fun _ => pureSafe _) raw
  all_goals refine plainFault (by rintro ⟨rest,same⟩; cases same) ?_ raw
  case write | read =>
    exact int32Safe.bind fun _ => int64Safe.bind fun _ => int64Safe.bind fun _ =>
      infoSafe.bind fun _ => pureSafe _
  case pwrite | pread =>
    exact int32Safe.bind fun _ => int64Safe.bind fun _ => int64Safe.bind fun _ =>
      int64Safe.bind fun _ => infoSafe.bind fun _ => pureSafe _
  case close =>
    exact int32Safe.bind fun _ => int32Safe.bind fun _ => infoSafe.bind fun _ => pureSafe _
  case lseek =>
    exact int32Safe.bind fun _ => int32Safe.bind fun _ => int64Safe.bind fun _ =>
      int64Safe.bind fun _ => infoSafe.bind fun _ => pureSafe _
  case llseek =>
    exact int32Safe.bind fun _ => int64Safe.bind fun _ => int64Safe.bind fun _ =>
      int32Safe.bind fun _ => int64Safe.bind fun _ => infoSafe.bind fun _ => pureSafe _
  case clone =>
    exact modeSafe.bind fun _ => int32Safe.bind fun _ => infoSafe.bind fun _ => pureSafe _
  case dup | dup2 | dup3 =>
    exact int32Safe.bind fun _ => int32Safe.bind fun _ => int32Safe.bind fun _ =>
      int32Safe.bind fun _ => infoSafe.bind fun _ => pureSafe _
  case pipe =>
    exact int32Safe.bind fun _ => int32Safe.bind fun _ => modeSafe.bind fun _ =>
      int32Safe.bind fun _ => infoSafe.bind fun _ => pureSafe _
  case socket => exact int32Safe.bind fun _ => infoSafe.bind fun _ => pureSafe _
  case sendfile =>
    exact int32Safe.bind fun _ => int32Safe.bind fun _ => int64Safe.bind fun _ =>
      int64Safe.bind fun _ => int64Safe.bind fun _ => infoSafe.bind fun _ => pureSafe _

theorem int32Written (v : Int32) (rest : Bytes) :
    readInt32 (writeInt32 v ++ rest) = .ok v rest := by
  have four : (writeInt32 v).length = 4 := leLength 4 _
  rw [readInt32Run _ rest four,writeInt32,readLeBounded 4 _ v.toUInt32.toNat_lt]
  simp

theorem int64Written (v : Int64) (rest : Bytes) :
    readInt64 (writeInt64 v ++ rest) = .ok v rest := by
  have eight : (writeInt64 v).length = 8 := leLength 8 _
  rw [readInt64,bindOk (eight ▸ takeGiven _ rest : takeBytes 8 _ = .ok (writeInt64 v) rest),
    writeInt64,readLeBounded 8 _ v.toUInt64.toNat_lt,pureRun]
  simp

theorem modeWritten (v : UInt32) (rest : Bytes) : readMode (writeMode v ++ rest) = .ok v rest := by
  have four : (writeMode v).length = 4 := leLength 4 _
  rw [readMode,bindOk (four ▸ takeGiven _ rest : takeBytes 4 _ = .ok (writeMode v) rest),
    writeMode,readLeBounded 4 _ v.toNat_lt,pureRun]
  simp

theorem stringWritten (name : CName) (rest : Bytes) :
    readString (writeString name ++ rest) = .ok name rest := by
  rw [writeString,List.append_assoc,readString,bindOk (int32Written _ _),
    buffGiven name.bytes rest name.fits,name.copyExact]

theorem infoWritten (info : OpInfo) (rest : Bytes) :
    binReadInfo (binWriteInfo info ++ rest) = .ok info rest := by
  simp only [binWriteInfo,List.append_assoc,binReadInfo,bindOk (int32Written _ _),pureRun]

theorem tagWritten (o : Op) (kept : o.type ≠ .rmdir) :
    binSaveItem o = o.type.code.toUInt8 :: (binSaveItem o).tail := by
  cases o <;> first | rfl | exact absurd rfl kept

theorem itemWritten (o : Op) (kept : o.type ≠ .rmdir) :
    ∃ reader, binCase o.type = some reader ∧
      ∀ rest, reader ((binSaveItem o).tail ++ rest) = .ok o.item rest := by
  cases o
  case rmdir => exact absurd rfl kept
  all_goals
    refine ⟨_,rfl,fun rest => ?_⟩
    simp only [binSaveItem,binSaveWrite,binSaveRead,binSavePwrite,binSavePread,binSaveOpen,
      binSaveClose,binSaveUnlink,binSaveLseek,binSaveLlseek,binSaveClone,binSaveDup,binSaveMkdir,
      binSavePipe,binSaveAccess,binSaveStat,binSaveSocket,binSaveSendfile,writeChar,
      List.append_assoc,List.cons_append,List.nil_append,List.tail_cons,
      binReadWrite,binReadRead,binReadPwrite,binReadPread,binReadOpen,binReadClose,binReadUnlink,
      binReadLseek,binReadLlseek,binReadClone,binReadMkdir,binReadDup,binReadPipe,binReadAccess,
      binReadStat,binReadSocket,binReadSendfile,bindOk (int32Written _ _),
      bindOk (int64Written _ _),bindOk (modeWritten _ _),bindOk (stringWritten _ _),
      bindOk (infoWritten _ _),pureRun,Op.item,Op.type]

end IoApps.Binary
