import Formula.Proofs.Marks
import Formula.Proofs.Prepared
import Formula.Proofs.Tree
import Formula.Registry.Standard

/-!
# Type arguments that are looked up

Type arguments may follow every name of a route. They are looked up where the name is that of a
method, or completes the name of a type (`BindEnv.Reads`). Behind any other name they are left
alone: a member takes none, and the names before the last one of a type only make up its namespace.

`Binder.typeArguments_resolve_iff`: in an expression that is bound, all type arguments stand for
types if and only if those do that were left alone.
-/

namespace Formula

/-! ## Names of types -/

namespace Host

/-- A written type name stands for a type. -/
def Knows (host : Host) (t : TypeName) : Prop := (host.resolve t).isSome = true

instance (host : Host) (t : TypeName) : Decidable (host.Knows t) :=
  inferInstanceAs (Decidable (_ = _))

variable {host : Host}

theorem knows_of_resolve {t : TypeName} {ty : Ty} (h : host.resolve t = some ty) : host.Knows t :=
  Option.isSome_of_eq_some h

private theorem knows_of_resolveAll {ts : List TypeName} {tys : List Ty}
    (h : host.resolveAll ts = some tys) :
    ∀ t ∈ ts, host.Knows t := by
  induction ts generalizing tys with
  | nil => simp
  | cons t ts ih =>
    rw [resolveAll] at h
    split at h
    · cases h
    · rename_i ht
      split at h
      · cases h
      · rename_i hts
        exact List.forall_mem_cons.mpr ⟨knows_of_resolve ht, ih hts⟩

/-- Where a path names a type, its type arguments do. -/
theorem knows_of_path {path : List String} {args : List TypeName} {ty : Ty}
    (h : (TypeName.ofPath? path args).bind host.resolve = some ty) : ∀ t ∈ args, host.Knows t := by
  obtain ⟨name, hname, hty⟩ := Option.bind_eq_some_iff.mp h
  unfold TypeName.ofPath? at hname
  split at hname
  · cases hname
  · cases hname
    rw [resolve] at hty
    split at hty
    · cases hty
    · exact knows_of_resolveAll ‹_›

end Host

/-- Whether a segment is a call. -/
def Segment.isMethod {α : Type} : Segment α → Bool
  | .method .. => true
  | _ => false

/-- The items of a block are its sign, which is an operator, and those behind it. -/
theorem Node.mem_splitSign (ns : List Node) :
    ∀ n ∈ ns, n.isOperator = true ∨ n ∈ (Node.splitSign ns).2 := by
  cases ns with
  | nil => simp
  | cons first rest =>
    rw [List.forall_mem_cons, Node.splitSign]
    cases hop : first.operator? with
    | none => exact ⟨.inr List.mem_cons_self, fun n hn => .inr (List.mem_cons_of_mem first hn)⟩
    | some op =>
      refine ⟨.inl (by rw [Node.isOperator, hop]; rfl), fun n hn => .inr ?_⟩
      dsimp only
      split
      · exact hn
      · exact List.mem_cons_of_mem first hn

namespace BindEnv

/-- The position of the name that completes the name of a type; `path` are the names before that
named none. -/
def typeEndFrom? (env : BindEnv) (path : List String) : List (Segment Node) → Option Nat
  | .member _ name generics :: rest =>
    match (TypeName.ofPath? (path ++ [name]) generics).bind env.host.resolve with
    | none => (env.typeEndFrom? (path ++ [name]) rest).map (· + 1)
    | some _ => some 0
  | _ => none

/-- Whether a bare name is that of a parameter, the receiver, or a member of the base type. -/
def isValueName (env : BindEnv) (name : String) : Bool :=
  (env.context.parameter? name).isSome ||
    env.context.base.any fun base =>
      name = "this" || (env.host.findMember base name).any fun m => !m.isStatic

/-- The position of the name that completes the name of a type, if a route starts with a type. -/
def typeEnd? (env : BindEnv) : RouteHead → List (Segment Node) → Option Nat
  | .scope, .member mark name [] :: rest =>
    if env.isValueName name then none else env.typeEndFrom? [] (.member mark name [] :: rest)
  | _, segments => env.typeEndFrom? [] segments

/-- The type arguments of segment `i` are looked up. -/
def Reads (env : BindEnv) (head : RouteHead) (segments : List (Segment Node)) (i : Nat) : Prop :=
  segments[i]?.any Segment.isMethod = true ∨ env.typeEnd? head segments = some i

/-! ## What is bound -/

/-- A node that is bound. -/
def Binds (env : BindEnv) (n : Node) : Prop := ∃ b, n.meaning env = .ok b

variable {env : BindEnv} {ns : List Node} {segment : Segment Node} {segments : List (Segment Node)}
  {target b : Bound}

theorem bindAll_ok {bs : List Bound} (h : bindAll (env.plainTasks ns) = .ok bs) :
    ∀ n ∈ ns, env.Binds n := by
  induction ns generalizing bs with
  | nil => simp
  | cons n ns ih =>
    obtain ⟨b, hb, h⟩ := Except.bind_ok h
    obtain ⟨bs', hbs, -⟩ := Except.bind_ok h
    exact List.forall_mem_cons.mpr ⟨⟨b, hb⟩, ih hbs⟩

theorem foldRest_ok :
    ∀ {ns : List Node} {acc : Bound}, env.foldRest acc (env.plainTasks ns) = .ok b →
    ∀ n ∈ ns, n.isOperator = true ∨ env.Binds n
  | [], _, _ => by simp
  | .operator mark .bar :: rest, acc, h => by cases h
  | [.operator mark (.arith op)], acc, h => by cases h
  | .operator mark (.arith op) :: right :: rest, acc, h => by
    simp only [plainTasks, List.map_cons, foldRest, Node.task_node] at h
    split at h
    · cases h
    · obtain ⟨r, hr, h⟩ := Except.bind_ok h
      obtain ⟨_, -, h⟩ := Except.bind_ok h
      obtain ⟨_, -, h⟩ := Except.bind_ok h
      exact List.forall_mem_cons.mpr
        ⟨.inl rfl, List.forall_mem_cons.mpr ⟨.inr ⟨r, hr⟩, foldRest_ok h⟩⟩
  | .unresolved mark raw :: rest, acc, h | .constant .. :: rest, acc, h | .cast .. :: rest, acc, h
  | .route .. :: rest, acc, h | .block .. :: rest, acc, h => by
    simp only [plainTasks, List.map_cons, foldRest, Node.task_node] at h
    cases h

/-- The items of a block that is bound are operators or bound. -/
theorem foldItems_ok (h : env.foldItems (env.plainTasks ns) = .ok b) :
    ∀ n ∈ ns, n.isOperator = true ∨ env.Binds n := by
  rw [plainTasks, Node.foldItems_map] at h
  have hmem := Node.mem_splitSign ns
  rcases hs : Node.splitSign ns with ⟨negative, _ | ⟨first, rest⟩⟩
  · simp only [hs] at h
    cases h
  · simp only [hs] at h hmem
    split at h
    · cases h
    · obtain ⟨b', hfirst, h⟩ := Except.bind_ok h
      obtain ⟨_, -, h⟩ := Except.bind_ok h
      obtain ⟨_, hrest, -⟩ := Except.bind_ok h
      intro n hn
      rcases hmem n hn with hop | hn
      · exact .inl hop
      · exact List.forall_mem_cons.mpr ⟨.inr ⟨b', hfirst⟩, foldRest_ok hrest⟩ n hn

/-! ## What is looked up -/

theorem resolveGenerics_ok {ts : List TypeName} {tys : List Ty}
    (h : env.resolveGenerics ts = .ok tys) :
    ∀ t ∈ ts, env.host.Knows t := by
  induction ts generalizing tys with
  | nil => simp
  | cons t ts ih =>
    rw [resolveGenerics] at h
    split at h
    · cases h
    · rename_i ht
      obtain ⟨_, hts, -⟩ := Except.map_ok h
      exact List.forall_mem_cons.mpr ⟨Host.knows_of_resolve ht, ih hts⟩

/-- The arguments of a segment are bound, and its type arguments stand for types if it is a call. -/
def Heeds (env : BindEnv) (segment : Segment Node) : Prop :=
  (∀ n ∈ segment.args, env.Binds n) ∧
    (segment.isMethod = true → ∀ t ∈ segment.generics, env.host.Knows t)

theorem callMethod_ok {target : Option Bound} {owner : Ty} {name : String}
    {generics : List TypeName}
    (h : env.callMethod target owner name generics (env.plainTasks ns) = .ok b) :
    (∀ n ∈ ns, env.Binds n) ∧ ∀ t ∈ generics, env.host.Knows t := by
  obtain ⟨tys, htys, h⟩ := Except.bind_ok h
  rw [Except.ofExcept_eq] at htys
  obtain ⟨bs, hbs, -⟩ := Except.bind_ok h
  exact ⟨bindAll_ok hbs, resolveGenerics_ok htys⟩

theorem bindInstance_ok (h : env.bindInstance target (env.plainSegment segment) = .ok b) :
    env.Heeds segment := by
  cases segment with
  | member mark name generics => exact ⟨by simp [Segment.args], fun hm => by cases hm⟩
  | method mark name generics args =>
    obtain ⟨hargs, hgenerics⟩ := callMethod_ok h
    exact ⟨hargs, fun _ => hgenerics⟩
  | indexer mark args =>
    obtain ⟨bs, hbs, -⟩ := Except.bind_ok h
    exact ⟨bindAll_ok hbs, fun hm => by cases hm⟩

theorem bindStatic_ok {ty : Ty} (h : env.bindStatic ty (env.plainSegment segment) = .ok b) :
    env.Heeds segment := by
  cases segment with
  | member mark name generics => exact ⟨by simp [Segment.args], fun hm => by cases hm⟩
  | method mark name generics args =>
    obtain ⟨hargs, hgenerics⟩ := callMethod_ok h
    exact ⟨hargs, fun _ => hgenerics⟩
  | indexer mark args => cases h

theorem bindLinks_ok (h : env.bindLinks target (segments.map env.plainSegment) = .ok b) :
    ∀ s ∈ segments, env.Heeds s := by
  induction segments generalizing target with
  | nil => simp
  | cons s rest ih =>
    obtain ⟨b', hb, h⟩ := Except.bind_ok h
    obtain ⟨b'', hinstance, -⟩ := Except.bind_ok hb
    exact List.forall_mem_cons.mpr ⟨bindInstance_ok hinstance, ih h⟩

theorem heeds_member (env : BindEnv) (mark : Mark) (name : String) (generics : List TypeName) :
    env.Heeds (.member mark name generics) := ⟨by simp [Segment.args], fun hm => by cases hm⟩

/-- All segments are heeded, and some name completes a type, with its type arguments. -/
theorem bindTypeRoute_ok {path : List String}
    (h : env.bindTypeRoute path (segments.map env.plainSegment) = .ok b) :
    (∀ s ∈ segments, env.Heeds s) ∧ ∃ i, env.typeEndFrom? path segments = some i ∧
      ∀ s, segments[i]? = some s → ∀ t ∈ s.generics, env.host.Knows t := by
  induction segments generalizing path with
  | nil => cases h
  | cons s rest ih =>
    cases s with
    | method mark name generics args => cases h
    | indexer mark args => cases h
    | member mark name generics =>
      have hmember := env.heeds_member mark name generics
      cases hpath : (TypeName.ofPath? (path ++ [name]) generics).bind env.host.resolve with
      | none =>
        simp only [List.map_cons, Segment.map, bindTypeRoute, hpath] at h
        obtain ⟨hall, i, hend, htype⟩ := ih h
        refine ⟨List.forall_mem_cons.mpr ⟨hmember, hall⟩, i + 1, ?_, htype⟩
        simp only [typeEndFrom?, hpath, hend, Option.map_some]
      | some ty =>
        simp only [List.map_cons, Segment.map, bindTypeRoute, hpath] at h
        refine ⟨List.forall_mem_cons.mpr ⟨hmember, ?_⟩, 0, by simp only [typeEndFrom?, hpath], ?_⟩
        · cases rest with
          | nil => simp
          | cons next rest =>
            obtain ⟨b', hnext, h⟩ := Except.bind_ok h
            exact List.forall_mem_cons.mpr ⟨bindStatic_ok hnext, bindLinks_ok h⟩
        · rintro s ⟨⟩
          exact Host.knows_of_path hpath

/-- A bare name that is bound is that of a value. -/
theorem bindName_ok {mark : Mark} {name : String} {found : Option Bound}
    (h : env.bindName mark name = (.ok found : Except BuildError (Option Bound))) :
    found.isSome = env.isValueName name := by
  unfold bindName at h
  unfold isValueName
  split at h
  · rename_i hparameter
    cases h
    rw [hparameter]
    rfl
  · rename_i hparameter
    rw [hparameter]
    split at h
    · rename_i hbase
      rw [hbase]
      split at h <;> cases h
      rfl
    · rename_i base hbase
      rw [hbase]
      split at h
      · rename_i hthis
        cases h
        simp [hthis]
      · rename_i hthis
        split at h
        · rename_i m hm
          cases h
          obtain ⟨hfound, hinstance⟩ := Option.filter_eq_some_iff.mp hm
          simp [hfound, hinstance]
        · rename_i hm
          cases h
          rw [Option.filter_eq_none_iff] at hm
          cases hfound : env.host.findMember base name with
          | none => simp [hthis, hfound]
          | some m => simpa [hthis, hfound] using hm m hfound

/-- The value that the head of a route is; there is none if the head may be the name of a type. -/
def bindHead (env : BindEnv) : RouteHead → Segment Node → Except BuildError (Option Bound)
  | .scope, .member mark name [] => env.bindName mark name
  | .scope, .method _ name generics args =>
    match env.context.base with
    | none => .error (.unknownIdentifier name)
    | some base =>
      (env.callMethod (some (.this base)) base name generics (env.plainTasks args)).map some
  | _, _ => .ok none

/-- A route is bound from the value of its head, or as that of a type. -/
theorem bindRoute_cons (head : RouteHead) (first : Segment Node) (rest : List (Segment Node)) :
    env.bindRoute head ((first :: rest).map env.plainSegment) = (do
      match ← env.bindHead head first with
      | some b => env.bindLinks b (rest.map env.plainSegment)
      | none => env.bindTypeRoute [] ((first :: rest).map env.plainSegment)) := by
  cases head with
  | type => cases first <;> rfl
  | scope =>
    cases first with
    | indexer mark args => rfl
    | member mark name generics => cases generics <;> rfl
    | method mark name generics args =>
      simp only [List.map_cons, Segment.map, bindRoute, bindHead, BindMonad.keep]
      cases env.context.base with
      | none => rfl
      | some base =>
        simp only
        cases env.callMethod (some (.this base)) base name generics (env.plainTasks args) <;> rfl

/-- A head that is a value is heeded, and is not the name of a type. -/
theorem bindHead_ok {head : RouteHead} {first : Segment Node} {found : Option Bound}
    (h : env.bindHead head first = .ok found) (rest : List (Segment Node)) :
    (found.isSome = true → env.Heeds first) ∧ env.typeEnd? head (first :: rest) =
      if found.isSome then none else env.typeEndFrom? [] (first :: rest) := by
  cases head with
  | type =>
    cases h
    exact ⟨nofun, rfl⟩
  | scope =>
    cases first with
    | indexer mark args =>
      cases h
      exact ⟨nofun, rfl⟩
    | method mark name generics args =>
      refine ⟨fun _ => ?_, by simp [typeEnd?, typeEndFrom?]⟩
      simp only [bindHead] at h
      split at h
      · cases h
      · obtain ⟨b', hcall, -⟩ := Except.map_ok h
        obtain ⟨hargs, hgenerics⟩ := callMethod_ok hcall
        exact ⟨hargs, fun _ => hgenerics⟩
    | member mark name generics =>
      refine ⟨fun _ => env.heeds_member mark name generics, ?_⟩
      cases generics with
      | nil => rw [typeEnd?, bindName_ok h]
      | cons t ts =>
        cases h
        rfl

/-- All segments of a route are heeded, and so are the type arguments of the name that completes a
type. -/
theorem bindRoute_ok {head : RouteHead}
    (h : env.bindRoute head (segments.map env.plainSegment) = .ok b) :
    (∀ s ∈ segments, env.Heeds s) ∧ ∀ i s, segments[i]? = some s →
      env.typeEnd? head segments = some i → ∀ t ∈ s.generics, env.host.Knows t := by
  rcases segments with _ | ⟨first, rest⟩
  · exact ⟨by simp, nofun⟩
  · rw [bindRoute_cons] at h
    obtain ⟨found, hfound, h⟩ := Except.bind_ok h
    obtain ⟨hfirst, hend⟩ := bindHead_ok hfound rest
    rw [hend]
    cases found with
    | some b' => exact ⟨List.forall_mem_cons.mpr ⟨hfirst rfl, bindLinks_ok h⟩, nofun⟩
    | none =>
      obtain ⟨hall, j, hj, hknows⟩ := bindTypeRoute_ok h
      refine ⟨hall, fun i s hs hi => ?_⟩
      cases hj.symm.trans hi
      exact hknows s hs

/-! ## What is left alone -/

variable {mark : Mark} {name : String} {generics generics' : List TypeName} {i : Nat}

/-- The type arguments of a member behind a value do not matter. -/
theorem bindLinks_set (hi : segments[i]? = some (.member mark name generics)) (target : Bound) :
    env.bindLinks target ((segments.set i (.member mark name generics')).map env.plainSegment) =
      env.bindLinks target (segments.map env.plainSegment) := by
  induction segments generalizing i target with
  | nil => cases hi
  | cons s rest ih =>
    cases i with
    | zero =>
      cases hi
      rfl
    | succ i =>
      simp only [List.set_cons_succ, List.map_cons, bindLinks]
      congr 1
      exact funext fun b => ih hi b

theorem bindTypeRoute_set {path : List String} {j : Nat}
    (hend : env.typeEndFrom? path segments = some j) (hj : j < i)
    (hi : segments[i]? = some (.member mark name generics)) :
    env.bindTypeRoute path ((segments.set i (.member mark name generics')).map env.plainSegment) =
      env.bindTypeRoute path (segments.map env.plainSegment) := by
  induction segments generalizing i j path with
  | nil => cases hi
  | cons s rest ih =>
    obtain ⟨i, rfl⟩ := Nat.exists_eq_succ_of_ne_zero (Nat.ne_zero_of_lt hj)
    cases s with
    | method mark name generics args => cases hend
    | indexer mark args => cases hend
    | member mark' name' generics'' =>
      cases hpath : (TypeName.ofPath? (path ++ [name']) generics'').bind env.host.resolve with
      | none =>
        simp only [typeEndFrom?, hpath] at hend
        simp only [List.set_cons_succ, List.map_cons, Segment.map, bindTypeRoute, hpath]
        obtain ⟨j', hend', rfl⟩ := Option.map_eq_some_iff.mp hend
        exact ih hend' (by omega) hi
      | some ty =>
        simp only [List.set_cons_succ, List.map_cons, Segment.map, bindTypeRoute, hpath]
        cases rest with
        | nil => cases hi
        | cons next rest =>
          cases i with
          | zero =>
            cases hi
            rfl
          | succ i =>
            have hi : rest[i]? = some (.member mark name generics) := hi
            simp only [List.set_cons_succ, List.map_cons]
            congr 1
            exact funext fun b => bindLinks_set hi b

/-- In a route that is bound the type arguments of members behind a value or a type do not
matter. -/
theorem bindRoute_set {head : RouteHead}
    (h : env.bindRoute head (segments.map env.plainSegment) = .ok b)
    (hi : segments[i]? = some (.member mark name generics))
    (hend : (env.typeEnd? head segments).getD 0 < i) :
    env.bindRoute head ((segments.set i (.member mark name generics')).map env.plainSegment) =
      .ok b := by
  obtain ⟨i, rfl⟩ := Nat.exists_eq_succ_of_ne_zero (Nat.ne_zero_of_lt hend)
  rcases segments with _ | ⟨first, rest⟩
  · cases hi
  have hrest : rest[i]? = some (.member mark name generics) := hi
  rw [bindRoute_cons] at h
  obtain ⟨found, hfound, h⟩ := Except.bind_ok h
  rw [List.set_cons_succ, bindRoute_cons, hfound]
  cases found with
  | some b' => exact (bindLinks_set hrest b').trans h
  | none =>
    obtain ⟨-, j, hj, -⟩ := bindTypeRoute_ok h
    rw [(bindHead_ok hfound rest).2, if_neg (by simp), hj] at hend
    exact (bindTypeRoute_set hj hend hi).trans h

end BindEnv

namespace Node

/-- The routes of a tree that is bound are bound. -/
theorem binds_of_mem_elements {env : BindEnv} {n : Node} {b : Bound} (h : n.meaning env = .ok b) :
    ∀ e ∈ n.elements, ∀ mark head segments, e = .node (.route mark head segments) →
      env.Binds (.route mark head segments) := by
  induction n using Node.induct generalizing b with
  | constant mark v => simp [elements]
  | operator mark op => simp [elements]
  | unresolved mark raw => simp [elements]
  | cast mark typeMark target signs operand ih =>
    simp only [meaning, task, kept, BindMonad.keep] at h
    obtain ⟨_, h, -⟩ := Except.bind_ok h
    obtain ⟨_, -, h⟩ := Except.bind_ok h
    obtain ⟨b', hoperand, -⟩ := Except.bind_ok h
    exact forall_elements_cast.mpr ⟨fun mark head segments heq => (by cases heq), ih hoperand⟩
  | route mark head segments ih =>
    have hroute := h
    simp only [meaning, task, kept, BindMonad.keep, taskSegments_eq_map] at h
    obtain ⟨_, h, -⟩ := Except.bind_ok h
    have hheeds := (BindEnv.bindRoute_ok h).1
    refine forall_elements_route.mpr
      ⟨?_, fun segment hsegment => ⟨fun _ _ _ heq => (by cases heq), ?_⟩⟩
    · intro mark' head' segments' heq
      cases heq
      exact ⟨b, hroute⟩
    · intro n hn
      obtain ⟨b', hb⟩ := (hheeds segment hsegment).1 n hn
      exact ih segment hsegment n hn hb
  | block mark items ih =>
    simp only [meaning, task, kept, BindMonad.keep, tasks_eq_map] at h
    obtain ⟨_, h, -⟩ := Except.bind_ok h
    refine forall_elements_block.mpr ⟨fun _ _ _ heq => (by cases heq), fun n hn => ?_⟩
    rcases BindEnv.foldItems_ok h n hn with hop | ⟨b', hb⟩
    · cases n with
      | operator mark op => simp [elements]
      | _ => cases hop
    · exact ih n hn hb

end Node

/-- The type arguments on all segments of all routes stand for types. -/
def Node.AllKnown (host : Host) (n : Node) : Prop :=
  ∀ mark head segments, .node (.route mark head segments) ∈ n.elements →
    ∀ s ∈ segments, ∀ t ∈ s.generics, host.Knows t

/-- What binding does with the type arguments of a route: those that are looked up stand for types,
and behind a value or a type those of a member may be any others. -/
structure BindEnv.Treats (env : BindEnv) (mark : Mark) (head : RouteHead)
    (segments : List (Segment Node)) :
    Prop where
  reads : ∀ i s, segments[i]? = some s → env.Reads head segments i → ∀ t ∈ s.generics,
    env.host.Knows t
  ignores : ∀ i m name generics generics', segments[i]? = some (.member m name generics) →
    (env.typeEnd? head segments).getD 0 < i →
      (Node.route mark head (segments.set i (.member m name generics'))).meaning env =
        (Node.route mark head segments).meaning env

theorem BindEnv.Binds.treats {env : BindEnv} {mark : Mark} {head : RouteHead}
    {segments : List (Segment Node)} (h : env.Binds (.route mark head segments)) :
    env.Treats mark head segments := by
  obtain ⟨b, hb⟩ := h
  simp only [Node.meaning, Node.task, Node.kept, BindMonad.keep, Node.taskSegments_eq_map] at hb
  obtain ⟨b', hroute, -⟩ := Except.bind_ok hb
  obtain ⟨hheeds, htype⟩ := bindRoute_ok hroute
  constructor
  · rintro i s hs (hmethod | hend)
    · rw [hs] at hmethod
      exact (hheeds s (List.mem_of_getElem? hs)).2 hmethod
    · exact htype i s hs hend
  · intro i m name generics generics' hi hend
    simp only [Node.meaning, Node.task, Node.kept, BindMonad.keep, Node.taskSegments_eq_map]
    rw [bindRoute_set hroute hi hend, hroute]

namespace Binder

variable {b : Binder} {context context' : Context} {source : String} {p : Prepared} {c : Compiled}

/-- **Type arguments that are looked up stand for types, and no others are.** In an expression that
is bound, all type arguments stand for types if and only if those do that are not looked up. -/
theorem typeArguments_resolve_iff (hp : b.prepare context source = .ok p)
    (hc : (b.bind context' p).1 = .ok c) :
    let env := b.env context'
    (∀ mark head segments, .node (.route mark head segments) ∈ p.root.elements →
        env.Treats mark head segments) ∧
      (p.root.AllKnown b.host ↔
        ∀ mark head segments, .node (.route mark head segments) ∈ p.root.elements →
          ∀ i s, segments[i]? = some s → ¬ env.Reads head segments i →
            ∀ t ∈ s.generics, b.host.Knows t) := by
  intro env
  rw [bind_eq_meaning hp] at hc
  obtain ⟨root, hroot, -⟩ := Except.map_ok hc
  have htreats : ∀ mark head segments, .node (.route mark head segments) ∈ p.root.elements →
      env.Treats mark head segments := fun mark head segments hmem =>
    (Node.binds_of_mem_elements hroot _ hmem mark head segments rfl).treats
  refine ⟨htreats, fun hall mark head segments hmem i s hs _ => ?_,
    fun hall mark head segments hmem s hs => ?_⟩
  · exact hall mark head segments hmem s (List.mem_of_getElem? hs)
  · obtain ⟨i, hi⟩ := List.mem_iff_getElem?.mp hs
    by_cases hreads : env.Reads head segments i
    · exact (htreats mark head segments hmem).reads i s hi hreads
    · exact hall mark head segments hmem i s hi hreads

/-- Type arguments in a namespace, and of a member behind a parameter. -/
theorem typeArguments_resolve_iff_length :
    let b : Binder := ⟨(Registry.standard []).host, .standard, false⟩
    let context : Context := ⟨none, [⟨"x", .string⟩]⟩
    ∃ p c, b.prepare context "System<Nope>.Math.Abs(x.Length<Nope>)" = .ok p ∧
      (b.bind context p).1 = .ok c ∧
      ∀ mark head segments, .node (.route mark head segments) ∈ p.root.elements →
        (b.env context).Treats mark head segments := by
  intro b context
  obtain ⟨p, hp, hbind⟩ : ∃ p, b.prepare context "System<Nope>.Math.Abs(x.Length<Nope>)" = .ok p ∧
      (b.bind context p).1.toOption.isSome = true :=
    Except.exists_ok (by decide +kernel)
  obtain ⟨c, hc⟩ := Option.isSome_iff_exists.mp hbind
  have hc := Except.toOption_eq_some hc
  exact ⟨p, c, hp, hc, (typeArguments_resolve_iff hp hc).1⟩

/-- The length of a text is bound although its type argument names nothing. -/
theorem length_of_unknown_bound :
    let b : Binder := ⟨(Registry.standard []).host, .standard, false⟩
    let context : Context := ⟨none, [⟨"x", .string⟩]⟩
    ∃ p c, b.prepare context "x.Length<Nope>" = .ok p ∧ (b.bind context p).1 = .ok c ∧
      ¬ p.root.AllKnown b.host := by
  intro b context
  let segments : List (Segment Node) :=
    [.member ⟨0, 0⟩ "x" [], .member ⟨1, 2⟩ "Length" [.simple "Nope"]]
  let root : Node := .block ⟨3, 0⟩ [.route ⟨2, 0⟩ .scope segments]
  have hp : b.prepare context "x.Length<Nope>" = .ok ⟨root, 4, .empty 4⟩ := by
    with_unfolding_all rfl
  obtain ⟨c, hc⟩ : ∃ c, (b.bind context ⟨root, 4, .empty 4⟩).1 = .ok c :=
    ⟨_, by with_unfolding_all rfl⟩
  have hmem : .node (.route ⟨2, 0⟩ .scope segments) ∈ root.elements := by
    simp [root, Node.elements, Node.elementsAll]
  have hunknown : ¬ b.host.Knows (.simple "Nope") := by decide +kernel
  refine ⟨_, c, hp, hc, fun hall => hunknown ?_⟩
  have hlength : .member ⟨1, 2⟩ "Length" [.simple "Nope"] ∈ segments := by simp [segments]
  exact hall _ _ _ hmem _ hlength _ List.mem_cons_self

end Binder

end Formula
