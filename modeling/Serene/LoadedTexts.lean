import Serene.ErrorPlaces
import Serene.SourceIndex

/-!
# From what a load returns back to its text

The line and the column of an error or of a node are looked up in the buffer the
source manager keeps for the name that was loaded, which is the caller's: the
name in a location refers to the argument of the load and is gone with it. The
reader's columns are one too large on the first line, and some locations are
taken a byte early; where a lookup ends up is the sum of the two.
-/

namespace LoadedTexts

open ByteClasses Locations AstNodes Lines ReaderModel ReaderPlaces LocationLookup Scanner
  ReaderRefinement Grammar ScannerGrammar ReaderGrammar ScannerTurns ErrorPlaces IncompleteInput
  SourceBuffers SourceManager SourceIndex Incremental

universe u
variable {ns data : Bytes} {filename : Option Bytes} {b : SrcBuffer} {k : Nat}

/-- The location the reader has after `k` bytes leads to the last of these, and on the first line
to the byte behind it. -/
def target (data : Bytes) (k : Nat) : Nat := if newline ∈ data.take (k - 1) then k - 1 else k

theorem leadsBack_steps (sound : Sound b) (holds : b.buffer.data = data) (fits : Fits data)
    (inside : k ≤ data.length) :
    LeadsBack b ((origin ns filename).steps (data.take k)).location (target data k) := by
  cases k with
  | zero =>
    obtain ⟨b', found, -⟩ := getPointer_sound sound (1 : UInt16).toUInt32
    exact ⟨0, b', found, rfl⟩
  | succ k =>
    have here : data.take (k + 1) = data.take k ++ [data[k]] :=
      List.take_succ_eq_append_getElem inside
    have split : b.buffer.data = data.take k ++ data.drop k := by
      rw [holds, List.take_append_drop]
    obtain ⟨lines, columns⟩ := Fits.bounds (w := data.take k) (v := data.drop k)
      (by rwa [List.take_append_drop])
    obtain ⟨b', found, -⟩ :=
      getPointer_sound sound (UInt16.ofNat (readerLine (data.take k))).toUInt32
    rw [UInt16.toNat_toUInt32, UInt16.toNat_ofNat_of_lt' lines, split, readerLine,
      Nat.add_sub_cancel, lineStart_line] at found
    rw [here, origin_steps, target, Nat.add_sub_cancel, LeadsBack]
    simp only [UInt16.toNat_ofNat_of_lt' columns]
    have short := column_le newline (data.take k)
    have length : (data.take k).length = k := List.length_take_of_le (by omega)
    refine ⟨_, b', found, ?_⟩
    split
    next later =>
      rw [readerCol, if_pos later]
      omega
    next first =>
      rw [readerCol, if_neg first, column_first newline first]
      omega

/-- The exits that take the location before the cursor is on the byte. -/
def early : ErrorType → Bool
  | .twoFloatPoints | .eofWhileScaningAList => true
  | _ => false

/-- Reading fails at byte `i`: the byte offends, or the text is unfinished and the innermost list
that is open begins there. -/
inductive FailsAt (ns data : Bytes) (type : ErrorType) : Nat → Prop where
  | byte {v u : Bytes} {c : UInt8} (split : body data = v ++ c :: u) (offends : Offends ns v c)
      (offence : Offence v c type) : FailsAt ns data type v.length
  | openList {v w : Bytes} (split : body data = v ++ lparen :: w) (balanced : Balanced w)
      (unfinished : Continuable ns (body data)) (eof : type = .eofWhileScaningAList) :
      FailsAt ns data type v.length

theorem body_take {v w : Bytes} (split : body data = v ++ w) : data.take v.length = v := by
  obtain ⟨rest, whole⟩ : body data <+: data := List.takeWhile_prefix _
  rw [← whole, split, List.append_assoc, List.take_left]

theorem FailsAt.inside {type : ErrorType} {i : Nat} (fails : FailsAt ns data type i) :
    i < data.length := by
  have short := (List.takeWhile_prefix (fun c => !isEndByte c) (l := data)).length_le
  change (body data).length ≤ data.length at short
  cases fails with
  | byte split =>
    rw [split, List.length_append, List.length_cons] at short
    omega
  | openList split =>
    rw [split, List.length_append, List.length_cons] at short
    omega

/-- The bytes the reader has passed where it takes the location of the error. -/
def passed (type : ErrorType) (i : Nat) : Nat := if early type then i else i + 1

theorem rejects_location {s : Scan} {c : UInt8} {e : Error} (rejected : Rejects s c e) :
    e.location.start =
      (if early e.type then s.tracker.location else (s.tracker.step c).location) := by
  cases rejected <;> rfl

theorem failsWith_place {e : Error} (failed : FailsWith data ns filename e) :
    ∃ i, FailsAt ns data e.type i ∧
      e.location.start = ((origin ns filename).steps (data.take (passed e.type i))).location := by
  rw [failsWith_run] at failed
  cases fed : (scanner ns).feed (initial ns filename) (body data) with
  | ok s =>
    rw [Machine.run_of_feed _ fed] at failed
    have unfinished := (continuable_iff filename).mpr ⟨s, fed⟩
    have nested := (initial_after fed).nested
    change s.finish ns = .error e at failed
    simp only [Scan.finish] at failed
    split at failed
    · cases failed
    · next start outer opened inList =>
      cases failed
      rw [inList] at nested
      generalize text : body data = whole at nested
      cases nested with
      | @inside v w _ _ around balanced =>
        refine ⟨v.length, .openList text balanced unfinished rfl, ?_⟩
        change _ = ((origin ns filename).steps (data.take v.length)).location
        rw [body_take text]
  | error e' =>
    rw [Machine.run, fed] at failed
    cases failed
    obtain ⟨v, c, u, s, split, before, stepped⟩ := Machine.split_of_feed_error _ fed
    have rejected := step_rejects stepped
    refine ⟨v.length, .byte split (offends_of_step before stepped)
      (offence_of_rejects before rejected), ?_⟩
    have longer : data.take (v.length + 1) = v ++ [c] := by
      rw [List.append_cons] at split
      have front := body_take split
      rwa [List.length_append] at front
    rw [rejects_location rejected, (initial_after before).tracker, passed]
    split
    · rw [body_take split]
    · rw [longer, Tracker.steps_append]
      rfl

mutual
/-- The nodes of a tree at any depth, with their locations. -/
def located {L : Type} : Node L → List (Kind × L)
  | .null => []
  | .symbol s => [(.symbol, s.location)]
  | .number n => [(.number n.isNeg, n.location)]
  | .list loc elements => (.list, loc) :: locatedAll elements

def locatedAll {L : Type} : List (Node L) → List (Kind × L)
  | [] => []
  | node :: nodes => located node ++ locatedAll nodes
end

/-- The location the reader has after `k` bytes of the text. -/
def passedLocation (ns : Bytes) (filename : Option Bytes) (data : Bytes) (k : Nat) : Location :=
  (trackerAt (origin ns filename) (body data) k).location

/-- Where the code takes the start of a node; that of a symbol is never taken. -/
def startPassed : Kind → Span → Option Nat
  | .symbol, _ => none
  | .number isNeg, (start, _) => some (start + 1 + isNeg.toNat)
  | .list, (start, _) => some start

/-- The nodes of a derivation lie in the text, and a negative number has its digit there. -/
theorem exprs_located {m : Nat} {u w : Bytes} {tree : List (Node Span)}
    (parsed : Exprs ns k u tree m w) : k ≤ m ∧ ∀ x ∈ locatedAll tree,
      k ≤ x.2.1 ∧ x.2.1 < x.2.2 ∧ x.2.2 ≤ m ∧ ∀ n ∈ startPassed x.1 x.2, n ≤ m := by
  induction parsed with
  | nil => exact ⟨Nat.le_refl _, by simp [locatedAll]⟩
  | space _ _ ih =>
    obtain ⟨order, inside⟩ := ih
    refine ⟨by omega, fun x mem => ?_⟩
    have := inside x mem
    exact ⟨by omega, this.2⟩
  | @number k m lexeme u w tree token _ ih =>
    obtain ⟨order, inside⟩ := ih
    have length := List.length_pos_of_ne_nil token.nonempty
    refine ⟨by omega, fun x mem => ?_⟩
    simp only [locatedAll, located, numberNode, List.singleton_append, List.mem_cons] at mem
    rcases mem with rfl | mem
    · refine ⟨Nat.le_refl k, by simp only; omega, order, ?_⟩
      intro n start
      cases start
      obtain ⟨neg, digit, digits, rfl, isDigit, -⟩ := token.shape
      cases neg with
      | false =>
        have plain : ((sign false ++ digit :: digits).head? == some minus) = false := by
          simpa [sign] using (digit_facts isDigit).2.2.1
        simp only [plain, Bool.toNat_false]
        omega
      | true =>
        simp only [sign, if_true, List.length_append, List.length_cons, List.length_nil] at order
        have most := Bool.toNat_le ((sign true ++ digit :: digits).head? == some minus)
        omega
    · have := inside x mem
      exact ⟨by omega, this.2⟩
  | @symbol k m lexeme u w tree token _ ih =>
    obtain ⟨order, inside⟩ := ih
    have length := List.length_pos_of_ne_nil token.nonempty
    refine ⟨by omega, fun x mem => ?_⟩
    simp only [locatedAll, located, symbolNode, Symbol.make_location, List.singleton_append,
      List.mem_cons] at mem
    rcases mem with rfl | mem
    · exact ⟨Nat.le_refl k, by simp only; omega, order, by simp [startPassed]⟩
    · have := inside x mem
      exact ⟨by omega, this.2⟩
  | @list k j m u v w elements tree _ _ ihInside ih =>
    obtain ⟨orderInside, within⟩ := ihInside
    obtain ⟨order, inside⟩ := ih
    refine ⟨by omega, fun x mem => ?_⟩
    rcases List.mem_append.mp mem with own | mem
    · rcases List.mem_cons.mp own with rfl | deeper
      · refine ⟨Nat.le_refl k, by simp only; omega, order, ?_⟩
        intro n start
        cases start
        omega
      · obtain ⟨first, range, last, start⟩ := within x deeper
        exact ⟨by omega, range, by omega, fun n taken => (start n taken).trans (by omega)⟩
    · have := inside x mem
      exact ⟨by omega, this.2⟩

/-- No call loads the name from a file it finds. -/
def Untouched (name : Bytes) : SourceMgr → List Call → Prop
  | _, [] => True
  | sm, call :: calls => (∀ found, ¬ Finds sm name found call) ∧ Untouched name (step sm call) calls

/-- The buffer of a name stays, with the ids of all buffers. -/
theorem untouched_info {sm : SourceMgr} {name : Bytes} {id : UInt32} {calls : List Call}
    (entry : sm.nsTable name = some id) (number : id.toNat = k + 1)
    (here : sm.buffers[k]? = some b) (untouched : Untouched name sm calls) :
    (calls.foldl step sm).getBufferInfo name = some b := by
  induction calls generalizing sm with
  | nil =>
    have nonzero : id ≠ 0 := by
      rintro rfl
      cases number
    simp only [List.foldl_nil, SourceMgr.getBufferInfo, entry, Option.getD_some, nonzero, if_false,
      number, Nat.add_sub_cancel, here]
  | cons call calls ih =>
    obtain ⟨none, rest⟩ := untouched
    obtain ⟨more, grown⟩ := step_grows sm call
    obtain ⟨inside, -⟩ := List.getElem?_eq_some_iff.mp here
    refine ih ?_ ?_ rest
    · cases step_does sm call with
      | nothing _ nsTable => rw [nsTable, entry]
      | adds _ _ _ nsTable => rw [nsTable, entry]
      | loads loaded found importLoc after _ finds =>
        have different : name ≠ loaded := by
          rintro rfl
          exact none found finds
        rw [after, SourceMgr.indexed_other _ _ _ _ different, entry]
    · rw [← grown, List.getElem?_append_left inside, here]

section Loads
variable {ε : Type} {host : Host ε} {name : Bytes} {importLoc : LocationRange}
variable {before after : List Call}

/-- The buffer a load adds is that of its name, until a file is found for the name again. -/
theorem load_info {newBuf : MemoryBuffer} {importedFile : Bytes}
    (fits : (run (before ++ .readNamespace host name importLoc :: after)).buffers.length < 2 ^ 32)
    (found : (run before).findFileInLoadPath host name = (some newBuf, importedFile))
    (untouched : Untouched name (step (run before) (.readNamespace host name importLoc)) after) :
    (run (before ++ .readNamespace host name importLoc :: after)).getBufferInfo name =
      some (fresh newBuf importLoc) := by
  have grows := (run_grows (before ++ [.readNamespace host name importLoc]) after).length_le
  rw [List.append_assoc, List.singleton_append, run_concat] at grows
  have loaded : step (run before) (.readNamespace host name importLoc) =
      (run before).indexed name importLoc newBuf := by
    rw [step, (run before).readNamespace_some host name importLoc found]
  rw [loaded] at untouched grows
  rw [SourceMgr.indexed_buffers, List.length_append, List.length_singleton] at grows
  have whole : run (before ++ .readNamespace host name importLoc :: after) =
      after.foldl step ((run before).indexed name importLoc newBuf) := by
    rw [run, List.foldl_append, List.foldl_cons]
    exact congrArg (after.foldl step) loaded
  rw [whole]
  have small : (run before).buffers.length + 1 < 2 ^ 32 := by omega
  refine untouched_info ((run before).indexed_own name importLoc newBuf)
    (UInt32.toNat_ofNat_of_lt' small) ?_ untouched
  rw [SourceMgr.indexed_buffers]
  exact List.getElem?_concat_length

/-- A load with a file reads the whole of it, with the name and the file in its locations. -/
theorem load_reads {newBuf : MemoryBuffer} {importedFile : Bytes}
    (fits : (run (before ++ [.readNamespace host name importLoc])).buffers.length < 2 ^ 32)
    (found : (run before).findFileInLoadPath host name = (some newBuf, importedFile)) :
    ((run before).readNamespace host name importLoc).1 =
      match outcome (read (.nulTerminated newBuf.data) name (some importedFile)) with
      | none => .crashed
      | some (.error e) => .failed (.error e)
      | some (.ok ast) =>
        match host.expandTree ⟨importLoc, name, some importedFile, []⟩ ast with
        | .error errs => .failed (.expansion errs)
        | .ok ns => .loaded ns := by
  have loaded : step (run before) (.readNamespace host name importLoc) =
      (run before).indexed name importLoc newBuf := by
    rw [step, (run before).readNamespace_some host name importLoc found]
  rw [run_concat, loaded, SourceMgr.indexed_buffers, List.length_append,
    List.length_singleton] at fits
  have designates : Designates ((run before).indexed name importLoc newBuf)
      (.ofNat ((run before).buffers.length + 1)) newBuf := added_designates fits rfl
  have nonzero : (UInt32.ofNat ((run before).buffers.length + 1)) ≠ 0 := by
    intro zero
    have number := congrArg UInt32.toNat zero
    rw [UInt32.toNat_ofNat_of_lt' fits] at number
    cases number
  rw [(run before).readNamespace_some host name importLoc found]
  simp only [SourceMgr.readIndexed, added_id, if_neg nonzero, designates.holds]
  rfl

/-- Whatever came before a load that fails in the reader, and whatever came after it but loads of
the name: the error is about the text of the file found, and the source manager has that text
for the name and leads from the error's line and column to the place that is wrong, one byte
further on the first line, one byte before where the location is taken early. -/
theorem failed_load_leads {e : Error}
    (fits : (run (before ++ .readNamespace host name importLoc :: after)).buffers.length < 2 ^ 32)
    (failed : ((run before).readNamespace host name importLoc).1 = .failed (.error e))
    (read : e.type ≠ .nsLoadError)
    (untouched : Untouched name (step (run before) (.readNamespace host name importLoc)) after) :
    ∃ newBuf importedFile i, FirstOpening host name (run before).loadPaths ⟨newBuf, importedFile⟩ ∧
      FailsAt name newBuf.data e.type i ∧
      (run (before ++ .readNamespace host name importLoc :: after)).getBufferInfo name =
        some (fresh newBuf importLoc) ∧
      (Fits newBuf.data → ∀ earlier, ∃ b, lookups (fresh newBuf importLoc) earlier = .ok b ∧
        LeadsBack b e.location.start (target newBuf.data (passed e.type i))) := by
  have grows := (run_grows (before ++ [.readNamespace host name importLoc]) after).length_le
  rw [List.append_assoc, List.singleton_append] at grows
  rcases found : (run before).findFileInLoadPath host name with ⟨_ | newBuf, importedFile⟩
  · rw [(run before).readNamespace_none host name importLoc found] at failed
    cases failed
    exact absurd rfl read
  · have info := load_info fits found untouched
    rw [load_reads (by omega) found] at failed
    have fails : FailsWith newBuf.data name (some importedFile) e := by
      rw [FailsWith]
      split at failed
      next => cases failed
      next same =>
        cases failed
        exact same
      next => split at failed <;> cases failed
    obtain ⟨i, place, start⟩ := failsWith_place fails
    have inside := place.inside
    refine ⟨newBuf, importedFile, i, findFileLoop_iff.mp found, place, info, ?_⟩
    intro counted earlier
    obtain ⟨b, looked, same, sound⟩ := lookups_sound (fresh_sound newBuf importLoc) earlier
    refine ⟨b, looked, ?_⟩
    rw [start]
    refine leadsBack_steps sound (congrArg MemoryBuffer.data same) counted ?_
    unfold passed
    split <;> omega

/-- A newline and a `)`. -/
def closing : MemoryBuffer := ⟨[10, 41], by decide⟩

def closingError : Error where
  type := .invalidCharacterForSymbol
  location := .ofStart { lineCol 2 1 with ns := text "c", filename := some (text "./c.srn") }
  msg := text "An extra ')' is detected."

theorem failed_load_leads_closing :
    ∃ i b, FailsAt (text "c") closing.data .invalidCharacterForSymbol i ∧
      lookups (fresh closing {}) [3] = .ok b ∧
      LeadsBack b closingError.location.start (target closing.data (i + 1)) := by
  have fits : (run ([.setLoadPaths [text "."]] ++
      .readNamespace (oneFile closing) (text "c") {} :: [.setLoadPaths []])).buffers.length <
        2 ^ 32 := by decide
  have failed : ((run [.setLoadPaths [text "."]]).readNamespace (oneFile closing) (text "c") {}).1 =
      .failed (.error closingError) := rfl
  obtain ⟨newBuf, importedFile, i, found, fails, info, leads⟩ :=
    failed_load_leads fits failed (by decide) ⟨fun _ finds => finds, trivial⟩
  have same : fresh newBuf {} = fresh closing {} := (Option.some.inj info).symm
  obtain rfl : newBuf = closing := congrArg SrcBuffer.buffer same
  obtain ⟨b, looked, back⟩ := leads (fits_short (by decide)) [3]
  exact ⟨i, b, fails, looked, back⟩

/-- Whatever came before a load whose text is one of expressions, and whatever came after it but
loads of the name: the tree given to the expansion has the ends of all its nodes, at any depth,
where the source manager leads back to their last bytes, the starts of numbers and lists where
it leads to their digits and to the bytes before them, all one byte further on the first line,
and the starts of symbols where it leads nowhere. -/
theorem loaded_nodes_lead {newBuf : MemoryBuffer} {importedFile : Bytes} {tree : List (Node Span)}
    (fits : (run (before ++ .readNamespace host name importLoc :: after)).buffers.length < 2 ^ 32)
    (found : FirstOpening host name (run before).loadPaths ⟨newBuf, importedFile⟩)
    (parsed : Parses name (body newBuf.data) tree)
    (untouched : Untouched name (step (run before) (.readNamespace host name importLoc)) after) :
    let range := recorded (passedLocation name (some importedFile) newBuf.data)
    ((run before).readNamespace host name importLoc).1 =
        (match host.expandTree ⟨importLoc, name, some importedFile, []⟩
            (tree.map (Node.map range)) with
          | .error errs => .failed (.expansion errs)
          | .ok ns => .loaded ns) ∧
      (run (before ++ .readNamespace host name importLoc :: after)).getBufferInfo name =
        some (fresh newBuf importLoc) ∧
      (Fits newBuf.data → ∀ earlier, ∃ b, lookups (fresh newBuf importLoc) earlier = .ok b ∧
        ∀ x ∈ locatedAll tree,
          LeadsBack b (range x.1 x.2).stop (target newBuf.data x.2.2) ∧
          (∀ n ∈ startPassed x.1 x.2, LeadsBack b (range x.1 x.2).start (target newBuf.data n)) ∧
          (startPassed x.1 x.2 = none → ∀ i, ¬ LeadsBack b (range x.1 x.2).start i)) := by
  have grows := (run_grows (before ++ [.readNamespace host name importLoc]) after).length_le
  rw [List.append_assoc, List.singleton_append] at grows
  have search : (run before).findFileInLoadPath host name = (some newBuf, importedFile) :=
    findFileLoop_iff.mpr found
  have reads := (readsAs_iff newBuf.data name (some importedFile) _).mpr ⟨tree, parsed, rfl⟩
  have whole : ((run before).readNamespace host name importLoc).1 = _ :=
    load_reads (by omega) search
  rw [ReadsAs] at reads
  rw [reads] at whole
  refine ⟨whole, load_info fits search untouched, ?_⟩
  intro counted earlier
  obtain ⟨b, looked, same, sound⟩ := lookups_sound (fresh_sound newBuf importLoc) earlier
  have holds : b.buffer.data = newBuf.data := congrArg MemoryBuffer.data same
  obtain ⟨rest, split⟩ : body newBuf.data <+: newBuf.data := List.takeWhile_prefix _
  -- the text and the file have the same bytes in front
  have leads {k : Nat} (inside : k ≤ (body newBuf.data).length) :
      LeadsBack b (passedLocation name (some importedFile) newBuf.data k)
        (target newBuf.data k) := by
    have front : (body newBuf.data).take k = newBuf.data.take k :=
      (List.take_append_of_le_length inside).symm.trans (congrArg (List.take k) split)
    have long := congrArg List.length split
    rw [List.length_append] at long
    rw [passedLocation, trackerAt, front]
    exact leadsBack_steps sound holds counted (by omega)
  refine ⟨b, looked, ?_⟩
  rintro ⟨kind, first, last⟩ mem
  obtain ⟨-, -, inside, start⟩ := (exprs_located parsed).2 _ mem
  cases kind with
  | symbol =>
    refine ⟨leads inside, by simp [startPassed], fun _ i => ?_⟩
    rintro ⟨pointer, b', looked', place⟩
    obtain ⟨b'', looked'', -⟩ := getPointer_sound sound (0 : UInt16).toUInt32
    cases looked''.symm.trans looked'
    simp [recorded] at place
  | number isNeg =>
    refine ⟨leads inside, fun n taken => ?_, by simp [startPassed]⟩
    cases taken
    exact leads (start _ rfl)
  | list =>
    refine ⟨leads inside, fun n taken => ?_, by simp [startPassed]⟩
    cases taken
    exact leads (start _ rfl)

end Loads

/-- A newline and a `b`. -/
def symbolBelow : MemoryBuffer := ⟨[10, 98], by decide⟩

theorem loaded_nodes_lead_below : ∃ b, lookups (fresh symbolBelow {}) [5] = .ok b ∧
    LeadsBack b (passedLocation (text "d") (some (text "./d.srn")) symbolBelow.data 2) 1 := by
  have fits : (run ([.setLoadPaths [text "."]] ++
      .readNamespace (oneFile symbolBelow) (text "d") {} :: [])).buffers.length < 2 ^ 32 := by
    decide
  have found : FirstOpening (oneFile symbolBelow) (text "d")
      (run [.setLoadPaths [text "."]]).loadPaths ⟨symbolBelow, text "./d.srn"⟩ :=
    ⟨[], text ".", [], rfl, by simp, rfl, rfl⟩
  have token : SymbolAt [98] [] := by
    refine ⟨by simp, List.forall_mem_singleton.mpr rfl, ?_, by simp⟩
    rintro (digit | ⟨dash, -⟩)
    · cases digit
    · cases dash
  have parsed : Parses (text "d") (body symbolBelow.data) [symbolNode (text "d") (1, 2) [98]] :=
    .space rfl (.symbol token .nil)
  obtain ⟨-, -, leads⟩ := loaded_nodes_lead fits found parsed trivial
  obtain ⟨b, looked, back⟩ := leads (fits_short (by decide)) [5]
  exact ⟨b, looked, (back (.symbol, 1, 2) (by decide)).1⟩

end LoadedTexts
