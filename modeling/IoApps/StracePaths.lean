import IoApps.StracePending

/-! The calls that name a path, as strace prints them and as they are read. -/
namespace IoApps.Strace
open Lib (Bytes Prog ascii strstr tokens joined isSpace isDigit numeral signed Directive Radix Arg
  sscanf Reads Breaks)

structure FlagSet {α : Type} (table : List (Bytes × α)) where
  list : List (Bytes × α)
  some : list ≠ []
  known : ∀ e ∈ list, e ∈ table
  distinct : list.Nodup

section Flags
variable {α : Type} {table : List (Bytes × α)}

def FlagSet.text (f : FlagSet table) : Bytes := (joined bar (f.list.map (·.1))).tail

def FlagByte (c : UInt8) : Prop := Between c ∧ c ≠ comma ∧ c ≠ rparen ∧ isSpace c = false

instance (c : UInt8) : Decidable (FlagByte c) :=
  inferInstanceAs (Decidable (Between c ∧ c ≠ comma ∧ c ≠ rparen ∧ isSpace c = false))

structure FlagTable (table : List (Bytes × α)) : Prop where
  named : ∀ e ∈ table, Lib.Component bar e.1
  plain : ∀ e ∈ table, ∀ c ∈ e.1, FlagByte c
  short : (joined bar (table.map (·.1))).length < 200

variable (flags : FlagTable table) (f : FlagSet table)

theorem flagBar : joined bar (f.list.map (·.1)) = bar :: f.text :=
  Lib.joinedTail (mt List.map_eq_nil_iff.mp f.some)

include flags

theorem flagTokens : tokens bar f.text = f.list.map (·.1) := by
  refine Lib.tokensTail (mt List.map_eq_nil_iff.mp f.some) ?_
  intro c member
  obtain ⟨e,inside,same⟩ := List.mem_map.mp member
  exact same ▸ flags.named e (f.known e inside)

theorem flagText : ∀ c ∈ f.text, FlagByte c := by
  have all : ∀ c ∈ joined bar (f.list.map (·.1)), FlagByte c := by
    intro c member
    obtain ⟨text,inside,here⟩ := List.mem_flatMap.mp member
    rcases List.mem_cons.mp here with same | inner
    · rw [same]
      decide
    · obtain ⟨e,known,same⟩ := List.mem_map.mp inside
      exact flags.plain e (f.known e known) c (same ▸ inner)
  intro c member
  exact all c (List.mem_of_mem_tail member)

theorem flagSome : f.text ≠ [] := by
  intro empty
  have toks := flagTokens flags f
  rw [empty] at toks
  exact f.some (List.map_eq_nil_iff.mp toks.symm)

theorem flagShort : f.text.length < 200 := by
  have part : f.list.Subperm table := f.distinct.subperm f.known
  obtain ⟨l,same,sub⟩ := part
  have shorter : (joined bar (f.list.map (·.1))).length ≤
      (joined bar (table.map (·.1))).length := by
    have names : (joined bar (l.map (·.1))).length = (joined bar (f.list.map (·.1))).length :=
      ((same.map Prod.fst).flatMap_right (bar :: ·)).length_eq
    rw [← names]
    exact ((sub.map Prod.fst).flatMap (bar :: ·)).length_le
  have bound := flags.short
  rw [flagBar,List.length_cons] at shorter
  omega

theorem flagFold {β : Type} (read : Bytes → α) (reads : ∀ e ∈ table, read e.1 = e.2)
    (put : β → α → β) (zero : β) : (tokens bar f.text).foldl (fun v s => put v (read s)) zero =
      f.list.foldl (fun v e => put v e.2) zero := by
  rw [flagTokens flags,List.foldl_map]
  refine List.foldl_ext _ _ _ fun v e member => ?_
  rw [reads e (f.known e member)]

end Flags

theorem openTable : FlagTable openFlags := ⟨by decide +kernel,by decide +kernel,by decide +kernel⟩

theorem accessTable : FlagTable accessFlags :=
  ⟨by decide +kernel,by decide +kernel,by decide +kernel⟩

def FlagSet.openValue (f : FlagSet openFlags) : Int32 := f.list.foldl (fun v e => v ||| e.2) 0

def FlagSet.accessValue (f : FlagSet accessFlags) : UInt32 :=
  f.list.foldl (fun v e => v ||| e.2) 0

theorem openFlagsRead (f : FlagSet openFlags) : readOpenFlags f.text = f.openValue :=
  flagFold openTable f readOpenFlag (by decide) (· ||| ·) 0

theorem accessFlagsRead (f : FlagSet accessFlags) : readAccessFlags f.text = f.accessValue :=
  flagFold accessTable f readAccessFlag (by decide) (· ||| ·) 0

structure Mode where
  bits : Nat
  zeros : Nat
  fits : bits < 2 ^ 16

def Mode.text (m : Mode) : Bytes := List.replicate m.zeros 48 ++ numeral 8 m.bits

def Mode.decimal (m : Mode) : Nat := Lib.digitsValue 10 (numeral 8 m.bits)

theorem modeSome (m : Mode) : m.text ≠ [] :=
  List.append_ne_nil_of_right_ne_nil _ (Lib.numeralSome 8 m.bits)

theorem modeDigits (m : Mode) : ∀ c ∈ m.text, isDigit 8 c = true := by
  intro c member
  rcases List.mem_append.mp member with zero | digit
  · rw [List.eq_of_mem_replicate zero]
    rfl
  · exact Lib.numeralDigits (by decide) (by decide) m.bits c digit

theorem octalDigit {c : UInt8} (digit : isDigit 8 c = true) : isDigit 10 c = true := by
  have small : Lib.digitVal c < 8 := of_decide_eq_true digit
  exact decide_eq_true (by omega)

theorem modeOctal (m : Mode) : Lib.digitsValue 8 m.text = m.bits := by
  rw [Mode.text,Lib.digitsZeros,Lib.numeralValue (by decide) (by decide)]

theorem modeDecimal (m : Mode) : Lib.digitsValue 10 m.text = m.decimal :=
  Lib.digitsZeros 10 m.zeros _

theorem decimalStep {n : Nat} (large : 8 ≤ n) :
    Lib.digitsValue 10 (numeral 8 n) = Lib.digitsValue 10 (numeral 8 (n / 8)) * 10 + n % 8 := by
  have rest : n % 8 < 8 := Nat.mod_lt n (by decide)
  rw [Lib.numeralStep (by decide) (by decide) large,Lib.digitsValue,List.foldl_append,
    List.foldl_cons,List.foldl_nil,Lib.digitByteVal (by omega)]
  rfl

theorem decimalMore (n : Nat) : n ≤ Lib.digitsValue 10 (numeral 8 n) := by
  induction n using Nat.strongRecOn with
  | ind n ih =>
    rcases Nat.lt_or_ge n 8 with small | large
    · rw [Lib.numeralSmall (by decide) (by decide) small,Lib.digitsValue,List.foldl_cons,
        List.foldl_nil,Lib.digitByteVal (by omega)]
      omega
    · have front := ih (n / 8) (by omega)
      rw [decimalStep large]
      omega

theorem decimalSame (m : Mode) : m.decimal = m.bits ↔ m.bits < 8 := by
  rw [Mode.decimal]
  constructor
  · intro same
    by_contra many
    have front := decimalMore (m.bits / 8)
    rw [decimalStep (Nat.le_of_not_lt many)] at same
    omega
  · intro small
    rw [Lib.numeralSmall (by decide) (by decide) small,Lib.digitsValue,List.foldl_cons,
      List.foldl_nil,Lib.digitByteVal (by omega)]
    omega

theorem decimalBound {k n : Nat} (small : n < 8 ^ (k + 1)) :
    Lib.digitsValue 10 (numeral 8 n) < 10 ^ (k + 1) := by
  induction k generalizing n with
  | zero =>
    rw [Lib.numeralSmall (by decide) (by decide) (by omega),Lib.digitsValue,List.foldl_cons,
      List.foldl_nil,Lib.digitByteVal (by omega)]
    omega
  | succ k ih =>
    rcases Nat.lt_or_ge n 8 with one | large
    · rw [Lib.numeralSmall (by decide) (by decide) one,Lib.digitsValue,List.foldl_cons,
        List.foldl_nil,Lib.digitByteVal (by omega)]
      have power : 10 ^ 1 ≤ 10 ^ (k + 1 + 1) := Nat.pow_le_pow_right (by decide) (by omega)
      omega
    · have front := ih (show n / 8 < 8 ^ (k + 1) by
        rw [Nat.div_lt_iff_lt_mul (by decide),← Nat.pow_succ]
        exact small)
      rw [decimalStep large,Nat.pow_succ]
      omega

theorem wordNat {n : Nat} (small : n < 2 ^ 32) : UInt32.ofInt n = UInt32.ofNat n := by
  rw [UInt32.ofInt]
  congr 1
  omega

theorem modeSame (m : Mode) :
    UInt32.ofInt m.decimal = UInt32.ofNat m.bits ↔ m.bits < 8 := by
  have bits := m.fits
  have decimal : m.decimal < 10 ^ 6 := decimalBound (by omega)
  rw [← decimalSame]
  constructor
  · intro same
    have values := congrArg UInt32.toNat same
    rw [wordNat (by omega),UInt32.toNat_ofNat_of_lt' (by change _ < 2 ^ 32; omega),
      UInt32.toNat_ofNat_of_lt' (by change _ < 2 ^ 32; omega)] at values
    exact values
  · intro same
    rw [same,wordNat (by omega)]

structure StatText where
  front : Bytes
  back : Option Bytes
  begun : front ≠ []
  lead : ∀ c, front.head? = some c → isSpace c = false
  frontPlain : rparen ∉ front ∧ Unmarked front
  backPlain : ∀ b, back = some b → eq ∉ b ∧ Unmarked b

def StatText.print (t : StatText) (rest : Bytes) : Bytes :=
  match t.back with
  | none => t.front ++ rest
  | some b => t.front ++ rparen :: (b ++ rest)

inductive PathCall where
  | «open» (flags : FlagSet openFlags) (mode : Option Mode)
  | creat (mode : Mode)
  | mkdir (mode : Mode)
  | rmdir
  | unlink
  | access (mode : FlagSet accessFlags)
  | stat (wide : Bool) (buf : StatText)

def PathCall.name : PathCall → Bytes
  | .open _ _ => ascii "open"
  | .creat _ => ascii "creat"
  | .mkdir _ => ascii "mkdir"
  | .rmdir => ascii "rmdir"
  | .unlink => ascii "unlink"
  | .access _ => ascii "access"
  | .stat false _ => ascii "stat"
  | .stat true _ => ascii "stat64"

def PathCall.args : PathCall → Bytes → Bytes
  | .open flags none,rest => comma :: blank :: (flags.text ++ rest)
  | .open flags (some m),rest =>
    comma :: blank :: (flags.text ++ comma :: blank :: (m.text ++ rest))
  | .creat m,rest | .mkdir m,rest => comma :: blank :: (m.text ++ rest)
  | .rmdir,rest | .unlink,rest => rest
  | .access mode,rest => comma :: blank :: (mode.text ++ rest)
  | .stat _ buf,rest => comma :: blank :: buf.print rest

def PathCall.line (c : PathCall) (s : Stamp) (path : Bytes) (r : Result) (tail : Bytes) : Bytes :=
  s.print (c.name ++ lparen :: quote :: (path ++ quote :: c.args (r.print tail)))

def PathCall.item (c : PathCall) (s : Stamp) (path : CName) (r : Result) : Op :=
  let retval := Int32.ofInt r.retval
  match c with
  | .open flags none => .open ⟨path,flags.openValue,MODE_UNDEF,retval,callInfo s r⟩
  | .open flags (some m) =>
    .open ⟨path,flags.openValue,UInt32.ofNat m.bits,retval,callInfo s r⟩
  | .creat m => .open ⟨path,O_CREAT ||| O_WRONLY ||| O_TRUNC,UInt32.ofNat m.bits,retval,callInfo s r⟩
  | .mkdir m => .mkdir ⟨path,UInt32.ofNat m.bits,retval,callInfo s r⟩
  | .rmdir => .rmdir ⟨path,retval,callInfo s r⟩
  | .unlink => .unlink ⟨path,retval,callInfo s r⟩
  | .access mode => .access ⟨path,mode.accessValue,retval,callInfo s r⟩
  | .stat _ _ => .stat ⟨path,retval,callInfo s r⟩

def PathCall.readItem (c : PathCall) (s : Stamp) (path : CName) (r : Result) : Op :=
  let retval := Int32.ofInt r.retval
  match c with
  | .open flags (some m) =>
    .open ⟨path,flags.openValue,UInt32.ofInt m.decimal,retval,callInfo s r⟩
  | .creat m =>
    .open ⟨path,O_CREAT ||| O_WRONLY ||| O_TRUNC,UInt32.ofInt m.decimal,retval,callInfo s r⟩
  | _ => c.item s path r

def PathCall.Decimal : PathCall → Prop
  | .open _ (some m) => m.bits < 8
  | .creat m => m.bits < 8
  | _ => True

theorem readItemSame (c : PathCall) (s : Stamp) (path : CName) (r : Result) :
    c.readItem s path r = c.item s path r ↔ c.Decimal := by
  cases c with
  | «open» flags mode =>
    cases mode with
    | none => exact iff_of_true rfl trivial
    | some m =>
      rw [PathCall.readItem,PathCall.item,PathCall.Decimal,← modeSame]
      simp
  | creat m =>
    rw [PathCall.readItem,PathCall.item,PathCall.Decimal,← modeSame]
    simp
  | mkdir m => exact iff_of_true rfl trivial
  | rmdir => exact iff_of_true rfl trivial
  | unlink => exact iff_of_true rfl trivial
  | access mode => exact iff_of_true rfl trivial
  | stat wide buf => exact iff_of_true rfl trivial

theorem pathCallable (c : PathCall) : Callable c.name ∧ quote ∉ c.name ∧ Unmarked c.name := by
  have table : ∀ name ∈ [ascii "open",ascii "creat",ascii "mkdir",ascii "rmdir",ascii "unlink",
      ascii "access",ascii "stat",ascii "stat64"],
      Callable name ∧ quote ∉ name ∧ Unmarked name := by
    decide +kernel
  refine table c.name ?_
  cases c with
  | stat wide buf => cases wide <;> simp [PathCall.name]
  | «open» | creat | mkdir | rmdir | unlink | access => simp [PathCall.name]

section Name
variable {s : Stamp} {call : Bytes} (real : Callable call) (plain : quote ∉ call)
include real plain

theorem openReads (rest : Bytes) :
    Reads (stampFormat ++ [.skip quote,.lit quote]) (s.print (call ++ lparen :: quote :: rest))
      [.num s.pid,.text s.time] rest := by
  have skip : Reads [.skip quote] (call ++ [lparen] ++ quote :: rest) [] (quote :: rest) := by
    refine Lib.readsSkip (by simp) ?_ fun c first => (Option.some.inj first).symm
    intro member
    rcases List.mem_append.mp member with inside | last
    · exact plain inside
    · exact absurd (List.mem_singleton.mp last) (by decide)
  rw [List.append_assoc,List.singleton_append] at skip
  exact (stampReads s (callNext real _)).append (skip.append (Lib.readsLit quote))

theorem nameReads {path : Bytes} (some : path ≠ []) (clean : quote ∉ path)
    (fits : path.length < MAX_STRING) (rest : Bytes) :
    Reads nameFormat (s.print (call ++ lparen :: quote :: (path ++ quote :: rest)))
      [.num s.pid,.text s.time,.text path] rest := by
  have text : Reads [.upto quote (.some MAX_STRING) MAX_STRING] (path ++ quote :: rest)
      [.text path] (quote :: rest) :=
    Lib.readsUpto some clean fits (fun w same => Option.some.inj same ▸ Nat.le_of_lt fits)
      fun c first => (Option.some.inj first).symm
  have whole := ((openReads (s := s) real plain (path ++ quote :: rest)).append text).append
    (Lib.readsLit quote)
  exact whole

end Name

theorem scanReads {f : List Directive} {s rest : Bytes} {args : List Arg}
    (reads : Reads f s args rest) : scan f s = .ok args := by
  rw [scan,reads.done]

theorem sepReads {rest : Bytes} (next : ∀ c, rest.head? = some c → isSpace c = false) :
    Reads (lits ", ") (comma :: blank :: rest) [] rest :=
  (Lib.readsLit comma).append (readsBlank next)

theorem resultBreaks (r : Result) (tail : Bytes) : Breaks (r.print tail) :=
  Lib.breaksCons (by decide) _

theorem octalReads (m : Mode) {rest : Bytes} (breaks : Breaks rest) :
    Reads [o] (m.text ++ rest) [.num m.bits] rest := by
  have digits : Reads [o] (m.text ++ rest) [.num (Lib.digitsValue 8 m.text)] rest :=
    Lib.readsDigits (by decide) rfl (modeSome m) (modeDigits m) breaks
  rw [modeOctal] at digits
  exact digits

theorem decimalReads (m : Mode) {rest : Bytes} (breaks : Breaks rest) :
    Reads [u] (m.text ++ rest) [.num m.decimal] rest := by
  have digits : Reads [u] (m.text ++ rest) [.num (Lib.digitsValue 10 m.text)] rest :=
    Lib.readsDigits (by decide) rfl (modeSome m)
      (fun c member => octalDigit (modeDigits m c member)) breaks
  rw [modeDecimal] at digits
  exact digits

theorem modeNext (m : Mode) (rest : Bytes) :
    ∀ c, (m.text ++ rest).head? = some c → isSpace c = false :=
  headAppend (modeSome m) fun c member => digitNoSpace c (octalDigit (modeDigits m c member))

theorem flagNext {α : Type} {table : List (Bytes × α)} (flags : FlagTable table)
    (f : FlagSet table) (rest : Bytes) :
    ∀ c, (f.text ++ rest).head? = some c → isSpace c = false :=
  headAppend (flagSome flags f) fun c member => (flagText flags f c member).2.2.2

theorem flagReads {α : Type} {table : List (Bytes × α)} (flags : FlagTable table)
    (f : FlagSet table) {stop : UInt8} (ends : stop = comma ∨ stop = rparen) (rest : Bytes) :
    Reads [.upto stop none MAX_STRING] (f.text ++ stop :: rest) [.text f.text] (stop :: rest) := by
  have clean : stop ∉ f.text := by
    intro member
    have plain := flagText flags f stop member
    rcases ends with same | same
    · exact plain.2.1 same
    · exact plain.2.2.1 same
  have short : f.text.length < MAX_STRING := Nat.lt_trans (flagShort flags f) (by decide)
  exact Lib.readsUpto (flagSome flags f) clean short (fun _ none => nomatch none)
    fun c first => (Option.some.inj first).symm

theorem bufNext (buf : StatText) (rest : Bytes) :
    ∀ c, (buf.print rest).head? = some c → isSpace c = false := by
  intro c first
  refine buf.lead c ?_
  unfold StatText.print at first
  split at first
  · rwa [List.head?_append_of_ne_nil _ buf.begun] at first
  · rwa [List.head?_append_of_ne_nil _ buf.begun] at first

theorem bufReads (buf : StatText) (r : Result) (tail : Bytes) :
    Reads ([.skip rparen] ++ lits ")" ++ [.skip eq] ++ lits " = ") (buf.print (r.print tail)) []
      (signed r.retval ++ (r.note ++ (blank :: lt :: (r.time ++ gt :: tail)))) := by
  have rest : Reads (lits " = ") (eq :: blank :: (signed r.retval ++ (r.note ++
      (blank :: lt :: (r.time ++ gt :: tail))))) [] (signed r.retval ++ (r.note ++
      (blank :: lt :: (r.time ++ gt :: tail)))) :=
    (readsBlanks 0 fun c first => by cases first; rfl).append ((Lib.readsLit eq).append
      (readsBlank (headAppend (signedSome r.retval) (signedBytes digitNoSpace rfl))))
  have pad {c : UInt8} (other : c ≠ blank) : c ∉ List.replicate (r.pad + 1) blank := fun member =>
    other (List.eq_of_mem_replicate member)
  unfold StatText.print
  split
  · have front : Reads [.skip rparen] (buf.front ++ r.print tail) [] (r.print tail) :=
      Lib.readsSkip buf.begun buf.frontPlain.1 fun c first => (Option.some.inj first).symm
    have blanks : Reads [.skip eq] (List.replicate (r.pad + 1) blank ++ (eq :: blank ::
        (signed r.retval ++ (r.note ++ (blank :: lt :: (r.time ++ gt :: tail)))))) [] _ :=
      Lib.readsSkip (by simp) (pad (by decide)) fun c first => (Option.some.inj first).symm
    exact ((front.append (Lib.readsLit rparen)).append blanks).append rest
  · rename_i b inside
    have front : Reads [.skip rparen] (buf.front ++ rparen :: (b ++ r.print tail)) []
        (rparen :: (b ++ r.print tail)) :=
      Lib.readsSkip buf.begun buf.frontPlain.1 fun c first => (Option.some.inj first).symm
    have blanks : Reads [.skip eq] (b ++ rparen :: List.replicate (r.pad + 1) blank ++ (eq ::
        blank :: (signed r.retval ++ (r.note ++ (blank :: lt :: (r.time ++ gt :: tail)))))) []
        (eq :: blank :: (signed r.retval ++ (r.note ++ (blank :: lt :: (r.time ++ gt :: tail))))) := by
      refine Lib.readsSkip (by simp) ?_ fun c first => (Option.some.inj first).symm
      intro member
      rcases List.mem_append.mp member with inner | later
      · exact (buf.backPlain b inside).1 inner
      · rcases List.mem_cons.mp later with same | blank
        · exact absurd same (by decide)
        · exact pad (by decide) blank
    rw [List.append_assoc,List.cons_append] at blanks
    exact ((front.append (Lib.readsLit rparen)).append blanks).append rest

section Readers
variable {s : Stamp} {r : Result} {path tail : Bytes} (some : path ≠ []) (clean : quote ∉ path)
  (fits : path.length < MAX_STRING) {name : CName} (named : toName path = .ok name)
include some clean fits

theorem pathReads (c : PathCall) (rest : Bytes) : Reads nameFormat
    (s.print (c.name ++ lparen :: quote :: (path ++ quote :: rest)))
    [.num s.pid,.text s.time,.text path] rest :=
  nameReads (pathCallable c).1 (pathCallable c).2.1 some clean fits rest

include named

theorem mkdirRead (m : Mode) : straceReadMkdir ((PathCall.mkdir m).line s path r tail) =
    .ok (.item ((PathCall.mkdir m).readItem s name r)) := by
  have reads := ((pathReads (s := s) some clean fits (.mkdir m) _).append
    (sepReads (modeNext m (r.print tail)))).append (octalReads m (resultBreaks r tail))
  have bits : UInt32.ofInt m.bits = UInt32.ofNat m.bits :=
    wordNat (Nat.lt_trans m.fits (by decide))
  rw [straceReadMkdir,mkdirFormat,PathCall.line,PathCall.args,scanReads (reads.append (intReads r tail))]
  change (toName path >>= fun name => pure (Found.item (Op.mkdir ⟨name,UInt32.ofInt m.bits,
    Int32.ofInt r.retval,opInfo s.pid s.time r.time⟩)) : Scan Found) = _
  rw [named,opInfoRead,bits]
  rfl

theorem creatRead (m : Mode) : straceReadCreat ((PathCall.creat m).line s path r tail) =
    .ok (.item ((PathCall.creat m).readItem s name r)) := by
  have reads := ((pathReads (s := s) some clean fits (.creat m) _).append
    (sepReads (modeNext m (r.print tail)))).append (decimalReads m (resultBreaks r tail))
  rw [straceReadCreat,creatFormat,PathCall.line,PathCall.args,scanReads (reads.append (intReads r tail))]
  change (toName path >>= fun name => pure (Found.item (Op.open ⟨name,O_CREAT ||| O_WRONLY ||| O_TRUNC,
    UInt32.ofInt m.decimal,Int32.ofInt r.retval,opInfo s.pid s.time r.time⟩)) : Scan Found) = _
  rw [named,opInfoRead]
  rfl

theorem unlinkRead : straceReadUnlink (PathCall.unlink.line s path r tail) =
    .ok (.item (PathCall.unlink.readItem s name r)) := by
  have reads := (pathReads (s := s) some clean fits .unlink _).append (intReads r tail)
  rw [straceReadUnlink,straceReadName,nameOnlyFormat,PathCall.line,PathCall.args,scanReads reads]
  change (toName path >>= fun name => pure (Found.item (Op.unlink ⟨name,Int32.ofInt r.retval,
    opInfo s.pid s.time r.time⟩)) : Scan Found) = _
  rw [named,opInfoRead]
  rfl

theorem accessRead (mode : FlagSet accessFlags) :
    straceReadAccess ((PathCall.access mode).line s path r tail) =
      .ok (.item ((PathCall.access mode).readItem s name r)) := by
  have reads := ((pathReads (s := s) some clean fits (.access mode) _).append
    (sepReads (flagNext accessTable mode (r.print tail)))).append
      (flagReads accessTable mode (.inr rfl) _)
  rw [straceReadAccess,flagsFormat,PathCall.line,PathCall.args,
    scanReads (reads.append (intReads r tail))]
  change (toName path >>= fun name => pure (Found.item (Op.access ⟨name,readAccessFlags mode.text,
    Int32.ofInt r.retval,opInfo s.pid s.time r.time⟩)) : Scan Found) = _
  rw [named,opInfoRead,accessFlagsRead]
  rfl

theorem openModeRead (flags : FlagSet openFlags) (m : Mode) :
    straceReadOpen ((PathCall.open flags (.some m)).line s path r tail) =
      .ok (.item ((PathCall.open flags (.some m)).readItem s name r)) := by
  have reads := ((((pathReads (s := s) some clean fits (.open flags (.some m)) _).append
    (sepReads (flagNext openTable flags (comma :: blank :: (m.text ++ r.print tail))))).append
      (flagReads openTable flags (.inl rfl) _)).append
        (sepReads (modeNext m (r.print tail)))).append (decimalReads m (resultBreaks r tail))
  rw [straceReadOpen,openFormat,PathCall.line,PathCall.args,
    scanReads (reads.append (intReads r tail))]
  change (toName path >>= fun name => pure (Found.item (Op.open ⟨name,readOpenFlags flags.text,
    UInt32.ofInt m.decimal,Int32.ofInt r.retval,opInfo s.pid s.time r.time⟩)) : Scan Found) = _
  rw [named,opInfoRead,openFlagsRead]
  rfl

theorem statRead (wide : Bool) (buf : StatText) :
    straceReadStat ((PathCall.stat wide buf).line s path r tail) =
      .ok (.item ((PathCall.stat wide buf).readItem s name r)) := by
  have number : Reads ([d,.skip lt] ++ lits "<" ++ [.upto gt none MAX_TIME_STRING])
      (signed r.retval ++ (r.note ++ (blank :: lt :: (r.time ++ gt :: tail))))
      [.num r.retval,.text r.time] (gt :: tail) := numberReads r (by decide) tail
  have reads := (((pathReads (s := s) some clean fits (.stat wide buf) _).append
    (sepReads (bufNext buf (r.print tail)))).append (bufReads buf r tail)).append number
  rw [← List.append_assoc,← List.append_assoc,← List.append_assoc,← List.append_assoc,
    ← List.append_assoc] at reads
  rw [straceReadStat,statFormat,PathCall.line,PathCall.args,scanReads reads]
  change (toName path >>= fun name => pure (Found.item (Op.stat ⟨name,Int32.ofInt r.retval,
    opInfo s.pid s.time r.time⟩)) : Scan Found) = _
  rw [named,opInfoRead]
  rfl

theorem openRead (flags : FlagSet openFlags) (ends : comma ∉ tail) (short : tail.length ≤ 1) :
    straceReadOpen ((PathCall.open flags none).line s path r tail) =
      .ok (.item ((PathCall.open flags none).readItem s name r)) := by
  have front := (pathReads (s := s) some clean fits (.open flags none) _).append
    (sepReads (flagNext openTable flags (r.print tail)))
  have text : Reads [.upto comma none MAX_STRING] (flags.text ++ r.print tail ++ [])
      [.text (flags.text ++ r.print tail)] [] := by
    refine Lib.readsUpto (List.append_ne_nil_of_left_ne_nil (flagSome openTable flags) _) ?_ ?_
      (fun _ none => nomatch none) (fun _ none => nomatch none)
    · intro member
      rcases List.mem_append.mp member with flag | result
      · exact (flagText openTable flags comma flag).2.1 rfl
      · exact resultPlain r ends result
    · have first := flagShort openTable flags
      have second := resultShort r tail
      rw [List.length_append,MAX_STRING]
      omega
  rw [List.append_nil] at text
  have reads := (front.append (flagReads openTable flags (.inr rfl) _)).append (intReads r tail)
  rw [straceReadOpen,PathCall.line,PathCall.args]
  have fails : scan openFormat (s.print ((PathCall.open flags none).name ++ lparen :: quote ::
        (path ++ quote :: comma :: blank :: (flags.text ++ r.print tail)))) =
      .ok [.num s.pid,.text s.time,.text path,.text (flags.text ++ r.print tail)] := by
    have format : openFormat = nameFormat ++ lits ", " ++ [.upto comma none MAX_STRING] ++
          .lit comma :: (.space :: ([u] ++ resultFormat d)) := by
      simp only [openFormat,List.append_assoc]
      rfl
    rw [scan,format,(front.append text).stops (by simp)]
    rfl
  rw [fails,flagsFormat,scanReads reads]
  change (toName path >>= fun name => pure (Found.item (Op.open ⟨name,readOpenFlags flags.text,
    MODE_UNDEF,Int32.ofInt r.retval,opInfo s.pid s.time r.time⟩)) : Scan Found) = _
  rw [named,opInfoRead,openFlagsRead]
  rfl

end Readers

def PathCall.Dispatched (c : PathCall) : Prop := c ≠ .rmdir

def PathCall.code : PathCall → OpType
  | .open _ _ => .open
  | .creat _ => .creat
  | .mkdir _ => .mkdir
  | .rmdir => .unknown
  | .unlink => .unlink
  | .access _ => .access
  | .stat _ _ => .stat

theorem pathCode (c : PathCall) : operationCode c.name = c.code := by
  have codes : operationCode (ascii "open") = .open ∧ operationCode (ascii "creat") = .creat ∧
      operationCode (ascii "mkdir") = .mkdir ∧ operationCode (ascii "rmdir") = .unknown ∧
      operationCode (ascii "unlink") = .unlink ∧ operationCode (ascii "access") = .access ∧
      operationCode (ascii "stat") = .stat ∧ operationCode (ascii "stat64") = .stat := by
    decide +kernel
  obtain ⟨opens,creats,mkdirs,rmdirs,unlinks,accesses,stats,wides⟩ := codes
  cases c with
  | «open» flags mode => exact opens
  | creat m => exact creats
  | mkdir m => exact mkdirs
  | rmdir => exact rmdirs
  | unlink => exact unlinks
  | access mode => exact accesses
  | stat wide buf =>
    cases wide with
    | false => exact stats
    | true => exact wides

theorem pathRead {c : PathCall} (real : c.Dispatched) {s : Stamp} {r : Result}
    {path tail : Bytes} (some : path ≠ []) (clean : quote ∉ path)
    (fits : path.length < MAX_STRING) {name : CName} (named : toName path = .ok name)
    (ends : comma ∉ tail) (short : tail.length ≤ 1) :
    straceRead (operationCode c.name) (c.line s path r tail) =
      .ok (.item (c.readItem s name r)) := by
  rw [pathCode]
  cases c with
  | «open» flags mode =>
    cases mode with
    | none => exact openRead some clean fits named flags ends short
    | some m => exact openModeRead some clean fits named flags m
  | creat m => exact creatRead some clean fits named m
  | mkdir m => exact mkdirRead some clean fits named m
  | rmdir => exact absurd rfl real
  | unlink => exact unlinkRead some clean fits named
  | access mode => exact accessRead some clean fits named mode
  | stat wide buf => exact statRead some clean fits named wide buf

theorem pathKnown {c : PathCall} (real : c.Dispatched) : c.code ≠ .unknown := by
  cases c with
  | rmdir => exact absurd rfl real
  | «open» flags mode => exact nofun
  | creat m => exact nofun
  | mkdir m => exact nofun
  | unlink => exact nofun
  | access mode => exact nofun
  | stat wide buf => exact nofun

theorem flagUnmarked {α : Type} {table : List (Bytes × α)} (flags : FlagTable table)
    (f : FlagSet table) {rest : Bytes} : Unmarked (f.text ++ rest) ↔ Unmarked rest :=
  unmarkedRun fun c member => (flagText flags f c member).1

theorem modeUnmarked (m : Mode) {rest : Bytes} : Unmarked (m.text ++ rest) ↔ Unmarked rest :=
  unmarkedRun fun c member => digitBetween (octalDigit (modeDigits m c member))

theorem argsUnmarked (c : PathCall) (r : Result) {tail : Bytes} (plain : Unmarked tail) :
    Unmarked (c.args (r.print tail)) := by
  have result : Unmarked (r.print tail) := (resultUnmarked r tail).mpr plain
  have sep {text : Bytes} : Unmarked (comma :: blank :: text) ↔ Unmarked text :=
    (unmarkedCons (by decide)).trans (unmarkedCons (by decide))
  cases c with
  | «open» flags mode =>
    cases mode with
    | none => exact sep.mpr ((flagUnmarked openTable flags).mpr result)
    | some m =>
      exact sep.mpr ((flagUnmarked openTable flags).mpr (sep.mpr ((modeUnmarked m).mpr result)))
  | creat m => exact sep.mpr ((modeUnmarked m).mpr result)
  | mkdir m => exact sep.mpr ((modeUnmarked m).mpr result)
  | rmdir => exact result
  | unlink => exact result
  | access mode => exact sep.mpr ((flagUnmarked accessTable mode).mpr result)
  | stat wide buf =>
    refine sep.mpr ?_
    have inner : Unmarked (List.replicate (r.pad + 1) blank ++ (eq :: blank :: (signed r.retval ++
        (r.note ++ (blank :: lt :: (r.time ++ gt :: tail)))))) :=
      (unmarkedCons (by decide)).mp result
    unfold StatText.print
    split
    · exact (unmarkedJoin (by decide)).mpr ⟨buf.frontPlain.2,inner⟩
    · rename_i b inside
      exact (unmarkedJoin (by decide)).mpr ⟨buf.frontPlain.2,
        (unmarkedJoin (by decide)).mpr ⟨(buf.backPlain b inside).2,inner⟩⟩

theorem lineUnmarked (c : PathCall) (s : Stamp) (path : Bytes) (r : Result) {tail : Bytes}
    (plain : Unmarked tail) : Unmarked (c.line s path r tail) ↔ Unmarked path := by
  rw [PathCall.line,stampUnmarked,unmarkedJoin (by decide),unmarkedCons (by decide),
    unmarkedJoin (by decide)]
  constructor
  · intro all
    exact all.2.1
  · intro path
    exact ⟨(pathCallable c).2.2,path,argsUnmarked c r plain⟩

def opName : Op → Option CName
  | .open o => some o.name
  | .unlink o => some o.name
  | .mkdir o => some o.name
  | .rmdir o => some o.name
  | .access o => some o.name
  | .stat o => some o.name
  | _ => none

theorem readItemName {c : PathCall} (real : c.Dispatched) (s : Stamp) (name : CName)
    (r : Result) : opName (c.readItem s name r) = some name := by
  cases c with
  | «open» flags mode => cases mode <;> rfl
  | creat m => rfl
  | mkdir m => rfl
  | rmdir => exact absurd rfl real
  | unlink => rfl
  | access mode => rfl
  | stat wide buf => rfl

def scannedName (text : Bytes) : Bytes := (text.takeWhile (· != quote)).take MAX_STRING

theorem itemNamed {record : CName → Op} {text : Bytes} {o : Op}
    (read : (toName text).bind (fun name => pure (.item (record name))) = .ok (Found.item o)) :
    ∃ name, toName text = .ok name ∧ o = record name := by
  cases named : toName text with
  | error fault =>
    rw [named] at read
    cases read
  | ok name =>
    rw [named] at read
    cases read
    exact ⟨name,rfl,rfl⟩

section Scanned
variable {s : Stamp} {call : Bytes} (real : Callable call) (plain : quote ∉ call) {text : Bytes}
include real plain

theorem thirdText {g : List Directive} {a b : Arg} {name : Bytes} {more : List Arg}
    (ran : scan (nameFormat ++ g) (s.print (call ++ lparen :: quote :: text)) =
      .ok (a :: b :: .text name :: more)) :
    name = scannedName text ∧ name ≠ [] ∧ name.length < MAX_STRING := by
  have format : nameFormat ++ g = stampFormat ++ [.skip quote,.lit quote] ++
      (.upto quote (some MAX_STRING) MAX_STRING :: .lit quote :: g) := by
    simp only [nameFormat,List.append_assoc]
    rfl
  have front := openReads (s := s) real plain text
  rw [scan,format,front] at ran
  cases later : sscanf (.upto quote (some MAX_STRING) MAX_STRING :: .lit quote :: g) text with
  | error room =>
    rw [later] at ran
    cases ran
  | ok args =>
    rw [later] at ran
    cases ran
    obtain ⟨same,begun,fits⟩ := Lib.uptoOk later
    cases same
    exact ⟨rfl,begun,fits⟩

theorem scannedItem {g : List Directive} {a b : Arg} {path : Bytes} {more : List Arg}
    (ran : scan (nameFormat ++ g) (s.print (call ++ lparen :: quote :: text)) =
      .ok (a :: b :: .text path :: more)) {record : CName → Op} {o : Op}
    (read : (toName path).bind (fun name => pure (.item (record name))) = .ok (Found.item o))
    (own : ∀ name, opName (record name) = some name) : ∃ name, opName o = some name ∧
      toName (scannedName text) = .ok name ∧ scannedName text ≠ [] := by
  obtain ⟨same,begun,_⟩ := thirdText real plain ran
  obtain ⟨name,named,made⟩ := itemNamed read
  exact ⟨name,by rw [made,own],same ▸ named,same ▸ begun⟩

end Scanned

theorem pathNamed (c : PathCall) {s : Stamp} {text line : Bytes} {o : Op}
    (printed : line = s.print (c.name ++ lparen :: quote :: text))
    (read : straceRead c.code line = .ok (.item o)) : ∃ name, opName o = some name ∧
      toName (scannedName text) = .ok name ∧ scannedName text ≠ [] := by
  have own := pathCallable c
  cases c with
  | «open» flags mode =>
    change straceReadOpen line = _ at read
    rw [straceReadOpen,printed] at read
    simp only [bind,Except.bind] at read
    split at read
    · cases read
    · rename_i args ran
      split at read
      · exact scannedItem own.1 own.2.1 ran read fun _ => rfl
      · split at read
        · cases read
        · rename_i again
          split at read
          · exact scannedItem own.1 own.2.1 again read fun _ => rfl
          · cases read
  | creat m =>
    change straceReadCreat line = _ at read
    rw [straceReadCreat,printed] at read
    simp only [bind,Except.bind] at read
    split at read
    · cases read
    · rename_i args ran
      split at read
      · exact scannedItem own.1 own.2.1 ran read fun _ => rfl
      · cases read
  | mkdir m =>
    change straceReadMkdir line = _ at read
    rw [straceReadMkdir,printed] at read
    simp only [bind,Except.bind] at read
    split at read
    · cases read
    · rename_i args ran
      split at read
      · exact scannedItem own.1 own.2.1 ran read fun _ => rfl
      · cases read
  | rmdir => cases read
  | unlink =>
    change straceReadUnlink line = _ at read
    rw [straceReadUnlink,straceReadName,printed] at read
    simp only [bind,Except.bind] at read
    split at read
    · cases read
    · rename_i args ran
      split at read
      · exact scannedItem own.1 own.2.1 ran read fun _ => rfl
      · cases read
  | access mode =>
    change straceReadAccess line = _ at read
    rw [straceReadAccess,printed] at read
    simp only [bind,Except.bind] at read
    split at read
    · cases read
    · rename_i args ran
      split at read
      · exact scannedItem own.1 own.2.1 ran read fun _ => rfl
      · cases read
  | stat wide buf =>
    change straceReadStat line = _ at read
    rw [straceReadStat,printed] at read
    simp only [bind,Except.bind] at read
    split at read
    · cases read
    · rename_i args ran
      split at read
      · exact scannedItem own.1 own.2.1 ran read fun _ => rfl
      · cases read

end IoApps.Strace
