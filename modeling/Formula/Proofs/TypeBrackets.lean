import Formula.Proofs.TypeText

/-!
# Type arguments and their brackets

A list of type arguments is read to the bracket that matches its opening one
(`readTypeList_bracketed`): what stands between the two is balanced. The closing bracket of a text
is found by counting (`pastClosing`), without reading names.
-/

namespace Formula

/-! ## Dotted names -/

namespace Cursor

variable {c d : Cursor}

theorem rest_of_sees {x : Char} (h : c.sees x = true) : c.rest = x :: c.next.rest := by
  obtain ⟨rest, offset⟩ := c
  cases rest with
  | nil => cases h
  | cons y rest =>
    cases peek?_of_sees h
    rfl

theorem sees_of_seesDotName (h : c.seesDotName = true) : c.sees '.' = true := by
  obtain ⟨rest, offset⟩ := c
  rcases rest with _ | ⟨dot, _ | ⟨x, rest⟩⟩
  · cases h
  · cases h
  · have hdot := of_decide_eq_true ((Bool.and_eq_true _ _).mp h).1
    subst hdot
    rfl

theorem rest_of_name? {name : String} (h : c.name? = some (name, d)) :
    c.rest = name.toList ++ d.rest := by
  unfold name? at h
  split at h
  · split at h
    · cases h
      rw [String.toList_ofList]
      exact List.takeWhile_append_dropWhile.symm
    · cases h
  · cases h

end Cursor

/-- The pieces of a dotted name are read without a fault. -/
theorem many_dotName (c : Cursor) :
    ∃ names c', (∀ ε : Type, many (·.rest.length) (dotName (ε := ε)) c = .ok (names, c')) ∧
      (∀ name ∈ names, IsName name.toList) ∧
      c.rest = names.flatMap (fun name => '.' :: name.toList) ++ c'.rest := by
  induction hn : c.rest.length using Nat.strongRecOn generalizing c with
  | ind n ih =>
    cases hdot : (if c.seesDotName then c.next.name? else none) with
    | none =>
      refine ⟨[], c, fun ε => many_of_none ?_, List.forall_mem_nil _, rfl⟩
      rw [dotName, hdot]
    | some found =>
      obtain ⟨name, t⟩ := found
      have hstep : ∀ ε : Type, dotName (ε := ε) c = .ok (some (name, t)) :=
        fun ε => by rw [dotName, hdot]
      obtain ⟨hsees, hname⟩ : c.seesDotName = true ∧ c.next.name? = some (name, t) := by
        split at hdot
        · rename_i hsees
          exact ⟨hsees, hdot⟩
        · cases hdot
      have hrest : c.rest = '.' :: (name.toList ++ t.rest) := by
        rw [Cursor.rest_of_sees (Cursor.sees_of_seesDotName hsees), Cursor.rest_of_name? hname]
      have hlt : t.rest.length < c.rest.length := by
        rw [hrest, List.length_cons, List.length_append]
        omega
      obtain ⟨names, c', hmany, hnames, htext⟩ := ih _ (hn ▸ hlt) t rfl
      refine ⟨name :: names, c', fun ε => ?_,
        List.forall_mem_cons.mpr ⟨isName_of_name? hname, hnames⟩, ?_⟩
      · rw [many_eq, hstep]
        show (if t.rest.length < c.rest.length then _ else _) = _
        rw [if_pos hlt, hmany]
        rfl
      · rw [hrest, htext, List.flatMap_cons, List.append_assoc]
        rfl

/-! ## Entries -/

namespace TypeName

/-- Reads the entries of a list of type arguments and its closing bracket. -/
def readEntries (room : Nat) (c : Cursor) : Except ListFault (List TypeName × Cursor) :=
  readEntry room c >>= fun first =>
    many (·.rest.length) (readNextEntry room) first.2 >>= fun more =>
      if more.2.skipBlanks.sees '>' then .ok (first.1 :: more.1, more.2.skipBlanks.next)
      else .error .malformed

theorem readEntry_reaches {room : Nat} {c e : Cursor} {t : TypeName}
    (h : readEntry room c = .ok (t, e)) :
    c.Reaches e :=
  c.reaches_skipBlanks.trans (readTypeName_reaches (fun _ _ _ => readTypeList_reaches) h)

theorem readEntry_next_lt {room : Nat} {c e : Cursor} {t : TypeName} {x : Char}
    (h : readEntry room c = .ok (t, e)) (hx : e.skipBlanks.sees x = true) :
    e.skipBlanks.next.rest.length < c.rest.length :=
  Nat.lt_of_lt_of_le (Cursor.next_lt (Cursor.peek?_of_sees hx))
    ((readEntry_reaches h).trans e.reaches_skipBlanks).length_le

/-- The entries are one entry, and those behind a comma. -/
theorem readEntries_eq (room : Nat) (c : Cursor) :
    readEntries room c = readEntry room c >>= fun first =>
      if first.2.skipBlanks.sees ',' then
        readEntries room first.2.skipBlanks.next >>= fun more => .ok (first.1 :: more.1, more.2)
      else if first.2.skipBlanks.sees '>' then .ok ([first.1], first.2.skipBlanks.next)
      else .error .malformed := by
  unfold readEntries
  cases hfirst : readEntry room c with
  | error e => rfl
  | ok first =>
    obtain ⟨t, e⟩ := first
    show many (·.rest.length) (readNextEntry room) e >>= _ = ite _ _ _
    rw [many_eq]
    cases hcomma : e.skipBlanks.sees ',' with
    | false =>
      have hnone : readNextEntry room e = .ok none := if_neg (by simp [hcomma])
      rw [hnone]
      rfl
    | true =>
      have hnext : readNextEntry room e = (readEntry room e.skipBlanks.next).map some :=
        if_pos hcomma
      rw [hnext]
      cases hread : readEntry room e.skipBlanks.next with
      | error f => rfl
      | ok next =>
        obtain ⟨t', e'⟩ := next
        have hlt : e'.rest.length < e.rest.length :=
          Nat.lt_of_lt_of_le
            (Cursor.after_next (Cursor.peek?_of_sees hcomma) (readEntry_reaches hread)).2
            e.reaches_skipBlanks.length_le
        show (if e'.rest.length < e.rest.length then _ else _) >>= _ = _
        rw [if_pos hlt]
        show _ = (many (·.rest.length) (readNextEntry room) e' >>= _) >>= _
        cases many (·.rest.length) (readNextEntry room) e' with
        | error f => rfl
        | ok more =>
          show ite _ _ _ = ite _ _ _ >>= _
          split <;> rfl

/-- What holds of the last entry, and of an entry in front of others if it does of those, holds of
entries. -/
theorem readEntries_induction {room : Nat} {motive : Cursor → List TypeName → Cursor → Prop}
    (comma : ∀ {c t e ts d}, readEntry room c = .ok (t, e) → e.skipBlanks.sees ',' = true →
      motive e.skipBlanks.next ts d → motive c (t :: ts) d)
    (close : ∀ {c t e}, readEntry room c = .ok (t, e) → e.skipBlanks.sees '>' = true →
      motive c [t] e.skipBlanks.next)
    {c d : Cursor} {ts : List TypeName} (h : readEntries room c = .ok (ts, d)) : motive c ts d := by
  induction hn : c.rest.length using Nat.strongRecOn generalizing c ts with
  | ind n ih =>
    rw [readEntries_eq] at h
    obtain ⟨⟨t, e⟩, hread, h⟩ := Except.bind_ok h
    simp only at h
    cases hcomma : e.skipBlanks.sees ',' with
    | true =>
      rw [hcomma, if_pos rfl] at h
      obtain ⟨⟨more, e'⟩, hmore, h⟩ := Except.bind_ok h
      cases h
      exact comma hread hcomma (ih _ (hn ▸ readEntry_next_lt hread hcomma) hmore rfl)
    | false =>
      rw [hcomma, if_neg Bool.false_ne_true] at h
      split at h
      · rename_i hclose
        cases h
        exact close hread hclose
      · cases h

end TypeName

theorem readTypeList_eq (room : Nat) (c : Cursor) :
    readTypeList (room + 1) c = TypeName.readEntries room c.next := rfl

/-! ## The matching bracket -/

/-- What stands behind the bracket that closes the outermost of the opening ones, `opened` of which
came before; nothing if it is not closed. -/
def pastClosing (opened : Nat) : List Char → Option (List Char)
  | [] => none
  | x :: cs =>
    if x = '<' then pastClosing (opened + 1) cs
    else if x = '>' then if opened ≤ 1 then some cs else pastClosing (opened - 1) cs
    else pastClosing opened cs

/-- A text that closes what it opens, and no more. -/
def Balanced (used : List Char) : Prop :=
  ∀ opened more, pastClosing (opened + 1) (used ++ more) = pastClosing (opened + 1) more

namespace Balanced

variable {used used' : List Char}

theorem nil : Balanced [] := fun _ _ => rfl

theorem append (h : Balanced used) (h' : Balanced used') : Balanced (used ++ used') := by
  intro opened more
  rw [List.append_assoc, h, h']

theorem singleton {x : Char} (hopen : x ≠ '<') (hclose : x ≠ '>') : Balanced [x] := by
  intro opened more
  rw [List.singleton_append, pastClosing, if_neg hopen, if_neg hclose]

theorem of_forall (h : ∀ x ∈ used, x ≠ '<' ∧ x ≠ '>') : Balanced used := by
  induction used with
  | nil => exact nil
  | cons x used ih =>
    obtain ⟨⟨hopen, hclose⟩, hused⟩ := List.forall_mem_cons.mp h
    exact (singleton hopen hclose).append (ih hused)

theorem bracketed (h : Balanced used) : Balanced ('<' :: (used ++ ['>'])) := by
  intro opened more
  rw [List.cons_append, pastClosing, if_pos rfl, List.append_assoc, h,
    List.singleton_append, pastClosing, if_neg (by decide), if_pos rfl, if_neg (by omega),
    Nat.add_sub_cancel]

/-- The bracket that closes a balanced text is the matching one. -/
theorem pastClosing_bracketed (h : Balanced used) (more : List Char) :
    pastClosing 0 ('<' :: (used ++ '>' :: more)) = some more := by
  rw [pastClosing, if_pos rfl, h, pastClosing, if_neg (by decide), if_pos rfl,
    if_pos (Nat.le_refl _)]

end Balanced

namespace Cursor

/-- A balanced text stands between the cursors. -/
def Skips (c d : Cursor) : Prop := ∃ used, c.rest = used ++ d.rest ∧ Balanced used

variable {c d e : Cursor}

theorem Skips.refl (c : Cursor) : c.Skips c := ⟨[], rfl, .nil⟩

theorem Skips.trans (h : c.Skips d) (h' : d.Skips e) : c.Skips e := by
  obtain ⟨used, hrest, hused⟩ := h
  obtain ⟨used', hrest', hused'⟩ := h'
  exact ⟨used ++ used', by rw [hrest, hrest', List.append_assoc], hused.append hused'⟩

theorem skips_span {p : Char → Bool} (hopen : p '<' = false) (hclose : p '>' = false) (c : Cursor) :
    c.Skips (c.span p).2 := by
  refine ⟨c.rest.takeWhile p, List.takeWhile_append_dropWhile.symm, .of_forall fun x hx => ?_⟩
  have hp := List.all_eq_true.mp List.all_takeWhile x hx
  constructor
  · rintro rfl
    rw [hopen] at hp
    cases hp
  · rintro rfl
    rw [hclose] at hp
    cases hp

theorem skips_skipBlanks (c : Cursor) : c.Skips c.skipBlanks := c.skips_span rfl rfl

theorem skips_name? {name : String} (h : c.name? = some (name, d)) : c.Skips d := by
  unfold name? at h
  split at h
  · split at h
    · cases h
      exact c.skips_span rfl rfl
    · cases h
  · cases h

theorem skips_next {x : Char} (h : c.sees x = true) (hopen : x ≠ '<') (hclose : x ≠ '>') :
    c.Skips c.next :=
  ⟨[x], rest_of_sees h, .singleton hopen hclose⟩

end Cursor

/-! ## Lists -/

/-- What stands between the brackets of a list is balanced. -/
theorem readEntries_bracketed {room : Nat}
    (hentry : ∀ c t e, TypeName.readEntry room c = .ok (t, e) → c.Skips e) {c d : Cursor}
    {ts : List TypeName} (h : TypeName.readEntries room c = .ok (ts, d)) :
    ∃ used, c.rest = used ++ '>' :: d.rest ∧ Balanced used := by
  refine TypeName.readEntries_induction
    (motive := fun c _ d => ∃ used, c.rest = used ++ '>' :: d.rest ∧ Balanced used) ?_ ?_ h
  · rintro c t e ts d hread hcomma ⟨used', hrest', hused'⟩
    obtain ⟨used, hrest, hused⟩ := (hentry c t e hread).trans e.skips_skipBlanks
    refine ⟨used ++ ([','] ++ used'), ?_,
      hused.append (.append (.singleton (by decide) (by decide)) hused')⟩
    rw [hrest, Cursor.rest_of_sees hcomma, hrest', List.append_assoc, List.append_assoc,
      List.singleton_append]
  · intro c t e hread hclose
    obtain ⟨used, hrest, hused⟩ := (hentry c t e hread).trans e.skips_skipBlanks
    exact ⟨used, hrest.trans (congrArg _ (Cursor.rest_of_sees hclose)), hused⟩

/-- A list of type arguments stands between a bracket and the one that matches it. -/
theorem readTypeList_bracketed {room : Nat} {c d : Cursor} {ts : List TypeName}
    (hsees : c.sees '<' = true) (h : readTypeList room c = .ok (ts, d)) :
    ∃ used, c.rest = '<' :: (used ++ '>' :: d.rest) ∧ Balanced used := by
  induction room generalizing c d ts with
  | zero => cases h
  | succ room ih =>
    have hentry : ∀ c t e, TypeName.readEntry room c = .ok (t, e) → c.Skips e := by
      intro c t e hread
      refine c.skips_skipBlanks.trans
        (readTypeName_rel .refl .trans Cursor.skips_name? (fun hdot => ?_)
        (fun c ts d hsees hlist => ?_) hread)
      · exact Cursor.skips_next (Cursor.sees_of_seesDotName hdot) (by decide) (by decide)
      obtain ⟨used, hrest, hused⟩ := ih hsees hlist
      exact ⟨'<' :: (used ++ ['>']), by rw [hrest, List.cons_append, List.append_assoc]; rfl,
        hused.bracketed⟩
    rw [readTypeList_eq] at h
    obtain ⟨used, hrest, hused⟩ := readEntries_bracketed hentry h
    exact ⟨used, by rw [Cursor.rest_of_sees hsees, hrest], hused⟩

/-- Type arguments are given up without a trace, or read as a list. -/
theorem typeArguments?_ok {limit room : Nat} {c d : Cursor} {args : Option (List TypeName)}
    (h : typeArguments? limit room c = .ok (args, d)) :
    (args = none ∧ d = c) ∨ ∃ ts, args = some ts ∧ c.sees '<' = true ∧
      readTypeList room c = .ok (ts, d) := by
  rw [typeArguments?] at h
  cases hsees : c.sees '<' with
  | false =>
    rw [hsees, if_neg Bool.false_ne_true] at h
    cases h
    exact .inl ⟨rfl, rfl⟩
  | true =>
    rw [hsees, if_pos rfl] at h
    cases hlist : readTypeList room c with
    | error fault =>
      rw [hlist] at h
      cases fault with
      | malformed =>
        cases h
        exact .inl ⟨rfl, rfl⟩
      | tooDeep => cases h
    | ok found =>
      rw [hlist] at h
      cases h
      exact .inr ⟨_, rfl, rfl, rfl⟩

end Formula
