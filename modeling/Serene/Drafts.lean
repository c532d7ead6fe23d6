import Serene.TakenBack

/-!
# Drafts

The line being edited and the entries of the history are drafts, of which one is
edited at a time. Going to another entry puts the line in its place in the
history, so a draft is there again, as it was left, whatever is done to the
others.
-/

namespace Drafts

open ByteClasses Utf8Texts Zippers TerminalText LineColumns BoundedLogs InputHistory LineEditor
open EditSessions EditSafety ReplSession TakenBack

variable {mlmode : Bool} {cap j : Nat} {t : Text} {e e' : Editing} {keys more : List Key}

/-- The draft `j` places before the last one is `t`. -/
structure Holds (j : Nat) (t : Text) (e : Editing) : Prop where
  inside : e.index < e.past.length
  place : j < e.past.length
  edited : e.index = j → e.line.contents = t
  kept : e.index ≠ j → e.past[e.past.length - 1 - j]? = some t

/-- Draft `j` is not the one edited whenever a key that edits is pressed. -/
def Spares (mlmode : Bool) (cap j : Nat) : Editing → List Key → Prop
  | _, [] => True
  | e, key :: keys =>
    (Quiet key → e.index ≠ j) ∧
      match e.press mlmode cap key with
      | .goesOn e => Spares mlmode cap j e keys
      | .returns _ _ => True

theorem press_browses {key : Key} (loud : ¬Quiet key) (mlmode : Bool) (cap : Nat) (e : Editing) :
    ∃ dir, e.press mlmode cap key = .goesOn (e.browse dir) := by
  cases key with
  | char c plain =>
    unfold Quiet at loud
    by_cases up : c.code = 16
    · exact ⟨.prev, by rw [Editing.press, up]; rfl⟩
    · have down : c.code = 14 := by
        by_contra other
        exact loud ⟨up, other⟩
      exact ⟨.next, by rw [Editing.press, down]; rfl⟩
  | escape c esc a b short =>
    unfold Quiet at loud
    obtain ⟨bracket, letter⟩ := not_not.mp loud
    rcases letter with up | down
    · exact ⟨.prev, by rw [Editing.press, Editing.sequence, if_pos bracket, if_pos up]⟩
    · have other : b ≠ 'A'.toUInt8 := by
        rw [down]
        decide
      exact ⟨.next, by
        rw [Editing.press, Editing.sequence, if_pos bracket, if_neg other, if_pos down]⟩
  | extended c esc b d digit => exact absurd trivial loud

theorem browse_cases (inside : e.index < e.past.length) (dir : Direction) :
    e.browse dir = e ∨ e.browse dir = e.saved ∨
      ∃ index < e.past.length, e.browse dir = e.saved.showing index := by
  unfold Editing.browse
  cases dir with
  | next =>
    simp only
    split_ifs
    · exact Or.inl rfl
    · exact Or.inr (Or.inl rfl)
    · exact Or.inr (Or.inr ⟨e.index - 1, by omega, rfl⟩)
  | prev =>
    simp only
    split_ifs
    · exact Or.inl rfl
    · exact Or.inr (Or.inl rfl)
    · exact Or.inr (Or.inr ⟨e.index + 1, by omega, rfl⟩)

section Browse
variable (plain : ∀ c ∈ t, c.lead ≠ nul)
include plain

theorem Holds.saved_entry (holds : Holds j t e) :
    e.saved.past[e.saved.past.length - 1 - j]? = some t := by
  have inside := holds.inside
  have place := holds.place
  rw [Editing.saved, List.length_set]
  by_cases here : e.index = j
  · rw [holds.edited here, cut_self plain, here]
    exact List.getElem?_set_self (by omega)
  · rw [List.getElem?_set_ne (by omega)]
    exact holds.kept here

theorem Holds.saved (holds : Holds j t e) : Holds j t e.saved := by
  refine ⟨?_, ?_, holds.edited, fun _ => holds.saved_entry plain⟩
  · rw [Editing.saved, List.length_set]
    exact holds.inside
  · rw [Editing.saved, List.length_set]
    exact holds.place

theorem Holds.showing (holds : Holds j t e) {index : Nat} (inside : index < e.past.length) :
    Holds j t (e.saved.showing index) := by
  have saved := holds.saved plain
  have entry := holds.saved_entry plain
  refine ⟨?_, saved.place, ?_, fun _ => entry⟩
  · change index < e.saved.past.length
    rwa [Editing.saved, List.length_set]
  · intro here
    obtain rfl : index = j := here
    change (Zipper.atEnd ((e.saved.past[e.saved.past.length - 1 - index]?).getD [])).contents = t
    rw [Zipper.contents_atEnd, entry]
    rfl

theorem Holds.browse (holds : Holds j t e) (dir : Direction) : Holds j t (e.browse dir) := by
  rcases browse_cases holds.inside dir with same | same | ⟨index, inside, same⟩ <;> rw [same]
  · exact holds
  · exact holds.saved plain
  · exact holds.showing plain inside

theorem Holds.press (holds : Holds j t e) {key : Key} (spared : Quiet key → e.index ≠ j)
    (step : e.press mlmode cap key = .goesOn e') : Holds j t e' := by
  by_cases quiet : Quiet key
  · obtain ⟨past_eq, index_eq, -⟩ := press_moved [] 0 quiet step
    have elsewhere := spared quiet
    refine ⟨?_, ?_, fun here => absurd (index_eq ▸ here) elsewhere, fun _ => ?_⟩
    · rw [past_eq, index_eq]
      exact holds.inside
    · rw [past_eq]
      exact holds.place
    · rw [past_eq]
      exact holds.kept elsewhere
  · obtain ⟨dir, browses⟩ := press_browses quiet mlmode cap e
    rw [browses] at step
    cases step
    exact holds.browse plain dir

theorem Holds.run (holds : Holds j t e) (spares : Spares mlmode cap j e keys)
    (reached : pressed mlmode cap e keys = some e') : Holds j t e' := by
  induction keys generalizing e with
  | nil =>
    cases reached
    exact holds
  | cons key keys ih =>
    obtain ⟨here, later⟩ := spares
    rw [pressed] at reached
    cases step : e.press mlmode cap key with
    | returns accepted e₁ => rw [step] at reached; cases reached
    | goesOn e₁ =>
      rw [step] at later reached
      exact ih (holds.press plain here step) later reached

end Browse

theorem browse_inside (inside : e.index < e.past.length) (dir : Direction) :
    (e.browse dir).index < (e.browse dir).past.length := by
  have kept : e.saved.past.length = e.past.length := by rw [Editing.saved, List.length_set]
  rcases browse_cases inside dir with same | same | ⟨index, within, same⟩ <;> rw [same]
  · exact inside
  · exact kept ▸ inside
  · exact kept ▸ within

theorem pressed_inside (inside : e.index < e.past.length)
    (reached : pressed mlmode cap e keys = some e') : e'.index < e'.past.length := by
  induction keys generalizing e with
  | nil =>
    cases reached
    exact inside
  | cons key keys ih =>
    rw [pressed] at reached
    cases step : e.press mlmode cap key with
    | returns accepted e₁ => rw [step] at reached; cases reached
    | goesOn e₁ =>
      rw [step] at reached
      refine ih ?_ reached
      by_cases quiet : Quiet key
      · obtain ⟨past_eq, index_eq, -⟩ := press_moved [] 0 quiet step
        rwa [past_eq, index_eq]
      · obtain ⟨dir, browses⟩ := press_browses quiet mlmode cap e
        rw [browses] at step
        cases step
        exact browse_inside inside dir

variable {h : History} {past : List Text} {mem : Bytes} {cols : Nat} {prompt : Text}

/-- A draft is not lost: whatever is done to the others, it is the line again when the session is
back at it, and otherwise an entry of the history, if it was one. -/
theorem draft_kept (offered : Offered h past mem) (memory : 0 < mem.length)
    (some_columns : 0 < cols) (room : mlmode = false → columns prompt + 2 < cols)
    (leads : Leads mlmode (mem.length - 1) (Editing.opened h.history_max_len past) keys e)
    (plain : ∀ c ∈ e.line.contents, c.lead ≠ nul)
    (onwards : Leads mlmode (mem.length - 1) e more e')
    (spares : Spares mlmode (mem.length - 1) e.index e more) :
    ∃ line h', linenoiseRaw mlmode h cols mem (flat prompt)
        ((keys ++ more ++ [enterKey]).flatMap Key.bytes) = some (some line, h', []) ∧
      (e'.index = e.index → line = flat e.line.contents) ∧
      (e'.index ≠ e.index → 0 < e.index →
        h'.history[e'.past.length - 1 - e.index]? = some (flat e.line.contents)) := by
  have inside : e.index < e.past.length := pressed_inside push_nonempty leads.reached
  have holds : Holds e.index e.line.contents e :=
    ⟨inside, inside, fun _ => rfl, fun other => absurd rfl other⟩
  have after := holds.run plain spares onwards.reached
  have place := after.place
  refine ⟨_, _, linenoiseRaw_entered offered memory some_columns room (leads.append onwards),
    fun back => ?_, fun away behind => ?_⟩
  · rw [after.edited back]
  · have entry := after.kept away
    simp only [List.getElem?_map, List.getElem?_dropLast]
    rw [if_pos (by omega), entry]
    rfl

def upKey : Key := arrow 'A'.toUInt8 (by decide)
def downKey : Key := arrow 'B'.toUInt8 (by decide)

/-- Up to the entry before, something put in it, and back down. -/
def excursion : List Key := [upKey] ++ accented.map Inserted.key ++ [downKey]

def oldEntry : Text := [.ascii 121 (by decide)]

theorem draft_kept_excursion :
    ∃ h', linenoiseRaw true ⟨3, [[121]]⟩ 80 (List.replicate 8 0) (flat [])
        ((accented.map Inserted.key ++ excursion ++ [enterKey]).flatMap Key.bytes) =
      some (some [107, 0xCC, 0x81], h', []) := by
  have old : ∀ t ∈ [oldEntry], (flat t).length < 8 ∧ ∀ c ∈ t, c.lead ≠ nul := by decide
  have offered : Offered ⟨3, [[121]]⟩ [oldEntry] (List.replicate 8 0) := ⟨by decide, rfl, old⟩
  have memory : 0 < (List.replicate 8 (0 : UInt8)).length := by decide
  have room : true = false → columns ([] : Text) + 2 < 80 := nofun
  let typed := (Editing.opened 3 [oldEntry]).onLine (Zipper.insertAll (chars accented))
  have leads : Leads true 7 (Editing.opened 3 [oldEntry]) (accented.map Inserted.key) typed :=
    leads_typed accented (by decide)
  have more : Leads true 7 (typed.browse .prev) (accented.map Inserted.key)
      ((typed.browse .prev).onLine (Zipper.insertAll (chars accented))) :=
    leads_typed accented (by decide)
  have up (e : Editing) : Leads true 7 e [upKey] (e.browse .prev) := .one trivial rfl
  have down (e : Editing) : Leads true 7 e [downKey] (e.browse .next) := .one trivial rfl
  have onwards := ((up typed).append more).append (down _)
  have loud : ¬Quiet upKey ∧ ¬Quiet downKey :=
    ⟨fun quiet => quiet ⟨rfl, Or.inl rfl⟩, fun quiet => quiet ⟨rfl, Or.inr rfl⟩⟩
  obtain ⟨line, h', ran, back, -⟩ := draft_kept offered memory (Nat.succ_pos 79) room leads
    (by decide) onwards ⟨fun quiet => absurd quiet loud.1, fun _ => by decide, fun _ => by decide,
      fun quiet => absurd quiet loud.2, trivial⟩
  exact ⟨h', by rw [excursion, ran, back rfl]; rfl⟩

end Drafts
