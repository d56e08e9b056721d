import IoApps.Strace

/-! The loop that reads the trace file, against the lines of the file. -/
namespace IoApps.Strace
open Lib (Bytes Prog ascii)

def chunks (size : Nat) : Nat → Bytes → List Bytes
  | 0,_ => []
  | fuel + 1,f =>
    if f = [] then [] else (fgets size f).1 :: chunks size fuel (fgets size f).2

def processLines (stats : Bool) : List Bytes → StraceProg Unit
  | [] => pure ()
  | line :: lines => do
    let _ ← straceProcessLine stats (cstr line)
    processLines stats lines

def ended (line : Bytes) : Bytes := line ++ [newline]

def traceFile (lines : List Bytes) : Bytes := lines.flatMap ended

theorem loopChunks (stats : Bool) (fuel : Nat) (f : Bytes) :
    straceGetLoop stats fuel f = processLines stats (chunks MAX_LINE fuel f) := by
  induction fuel generalizing f with
  | zero => rfl
  | succ fuel ih =>
    rw [straceGetLoop,chunks]
    split
    · rfl
    · rw [processLines]
      simp only [ih]

section Size
variable {size : Nat}

theorem fgetsShort (some : 0 < size) (f : Bytes) : (fgets size f).1.length < size := by
  have bound : (fgets size f).1.length ≤ min (size - 1) _ := List.length_take_le _ _
  omega

theorem chunksShort (some : 0 < size) (fuel : Nat) (f : Bytes) :
    ∀ c ∈ chunks size fuel f, c.length < size := by
  induction fuel generalizing f with
  | zero => exact fun _ member => nomatch member
  | succ fuel ih =>
    intro c member
    rw [chunks] at member
    split at member
    · cases member
    · rcases List.mem_cons.mp member with first | later
      · rw [first]
        exact fgetsShort some f
      · exact ih _ c later

theorem fgetsEnded (size : Nat) {text : Bytes} (whole : newline ∉ text) (rest : Bytes) :
    fgets size (ended text ++ rest) =
      if text.length + 1 < size then (ended text,rest)
      else (text.take (size - 1),ended (text.drop (size - 1)) ++ rest) := by
  have run : (ended text ++ rest).takeWhile (· != newline) = text := by
    rw [ended,List.append_assoc]
    exact Lib.takeWhileBreak (Lib.runStops whole) fun c first => by
      cases first
      rfl
  have long : (ended text).length = text.length + 1 := List.length_append
  rw [fgets,run]
  split
  · rw [← long,Nat.min_eq_right (by omega)]
    simp only [List.take_left,List.drop_left]
  · rename_i long
    rw [Nat.min_eq_left (by omega),ended,List.append_assoc,List.take_append_of_le_length (by omega),
      List.drop_append_of_le_length (by omega),ended,List.append_assoc]

theorem fgetsLine {line : Bytes} (whole : newline ∉ line) (short : (ended line).length < size)
    (rest : Bytes) : fgets size (ended line ++ rest) = (ended line,rest) := by
  have long : (ended line).length = line.length + 1 := List.length_append
  rw [fgetsEnded size whole,if_pos (by omega)]

theorem endedSome (line : Bytes) : ended line ≠ [] :=
  List.append_ne_nil_of_right_ne_nil line (List.cons_ne_nil _ _)

theorem chunksLines {lines : List Bytes} (whole : ∀ line ∈ lines, newline ∉ line)
    (short : ∀ line ∈ lines, (ended line).length < size) {fuel : Nat}
    (enough : lines.length ≤ fuel) : chunks size fuel (traceFile lines) = lines.map ended := by
  induction lines generalizing fuel with
  | nil =>
    cases fuel with
    | zero => rfl
    | succ fuel => rfl
  | cons line lines ih =>
    cases fuel with
    | zero => cases enough
    | succ fuel =>
      have read : fgets size (traceFile (line :: lines)) = (ended line,traceFile lines) :=
        fgetsLine (whole line List.mem_cons_self) (short line List.mem_cons_self) _
      have some : traceFile (line :: lines) ≠ [] :=
        List.append_ne_nil_of_left_ne_nil (endedSome line) _
      have later := ih (fun l member => whole l (List.mem_cons_of_mem _ member))
        (fun l member => short l (List.mem_cons_of_mem _ member)) (Nat.le_of_succ_le_succ enough)
      rw [chunks,if_neg some,read,List.map_cons,later]

end Size

theorem linesLength (lines : List Bytes) : lines.length ≤ (traceFile lines).length := by
  induction lines with
  | nil => exact Nat.le_refl 0
  | cons line lines ih =>
    have size : (traceFile (line :: lines)).length =
        (ended line).length + (traceFile lines).length :=
      List.length_append
    have some := List.length_pos_of_ne_nil (endedSome line)
    rw [size,List.length_cons]
    omega

/-- Every line is processed once, whole and in order, and the state at the end is that of these
calls. -/
structure ByLines (stats : Bool) (list : List OpItem) (lines : List Bytes) : Prop where
  calls : chunks MAX_LINE (traceFile lines).length (traceFile lines) = lines.map ended
  same : straceGetItems stats (traceFile lines) list =
    processLines stats (lines.map ended) (straceInit list)

theorem byLines {lines : List Bytes} (whole : ∀ line ∈ lines, newline ∉ line) (stats : Bool)
    (list : List OpItem) :
    ByLines stats list lines ↔ ∀ line ∈ lines, (ended line).length < MAX_LINE := by
  constructor
  · intro done line member
    have short := chunksShort (by decide : 0 < MAX_LINE) (traceFile lines).length (traceFile lines)
    rw [done.calls] at short
    exact short _ (List.mem_map_of_mem member)
  · intro short
    have calls := chunksLines whole short (linesLength lines)
    exact ⟨calls,by rw [straceGetItems,loopChunks,calls]⟩

theorem byLinesTwo : ByLines false [] [ascii "7 1.0 close(3) = 0 <0.1>",ascii ""] :=
  (byLines (by decide) false []).mpr (by decide)

def longLine : Bytes :=
  ascii "7 1.0 uname(" ++ (List.replicate 499 0x61 ++ ascii "7 1.0 close(3) = 0 <0.1>")

def itemCount (r : Except StraceFault (Unit × StraceState)) : Except StraceFault Nat :=
  r.map (·.2.list.length)

theorem longLineSplit : ¬ ByLines false [] [longLine] := by
  intro done
  have one : itemCount (straceGetItems false (traceFile [longLine]) []) = .ok 1 := by
    decide +kernel
  have none : itemCount (processLines false [ended longLine] (straceInit [])) = .ok 0 := by
    decide +kernel
  rw [done.same] at one
  rw [List.map_singleton,none] at one
  cases one

end IoApps.Strace
