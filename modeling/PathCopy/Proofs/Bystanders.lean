import PathCopy.Proofs.Claims
import PathCopy.Proofs.Invariants
import PathCopy.Proofs.Phrases
import PathCopy.Proofs.Rules

/-!
Handles that stand by. Which values are held while an expression is evaluated matters only to the
writes in it. If no write that the expression may contain can tell one row of held values from
another, then the evaluation is the same with both. The variables that an expression writes through
can be read off it, so can that it writes nothing.
-/

namespace PathCopy

namespace Expr

/-- The variable through which an expression itself writes. -/
def written? (names : NameTable) : Expr → Option Name
  | .assign _ _ target _ | .step _ _ _ target => target.root?
  | .call _ (.member _ base prop) args =>
    match names.lookup prop, args with
    | "set", [_, _] | "delete", [_] => base.root?
    | _, _ => none
  | _ => none

/-- Every write in the expression goes through a variable that is allowed. -/
def WritesOnly (names : NameTable) (allowed : Name → Prop) (e : Expr) : Prop :=
  ∀ n ∈ e.nodes, ∀ x ∈ n.written? names, allowed x

instance (names : NameTable) (allowed : Name → Prop) [DecidablePred allowed] (e : Expr) :
    Decidable (e.WritesOnly names allowed) :=
  inferInstanceAs (Decidable (∀ n ∈ e.nodes, ∀ x ∈ n.written? names, allowed x))

abbrev Quiet (names : NameTable) (e : Expr) : Prop := e.WritesOnly names fun _ => False

variable {names : NameTable} {allowed : Name → Prop} {e e' : Expr}

theorem nodes_subset_of_child (h : e' ∈ e.children) : e'.nodes ⊆ e.nodes := by
  intro n hn
  rw [e.nodes_eq]
  exact List.mem_cons_of_mem _ (List.mem_flatMap.mpr ⟨e', h, hn⟩)

theorem nodes_subset_of_key (h : e' ∈ e.keys) : e'.nodes ⊆ e.nodes := by
  induction e using keys.induct with
  | case1 site base prop ih =>
      exact List.Subset.trans (ih h) (nodes_subset_of_child List.mem_cons_self)
  | case2 site base key ih =>
      rcases List.mem_append.mp h with h | h
      · exact List.Subset.trans (ih h) (nodes_subset_of_child List.mem_cons_self)
      · rw [List.mem_singleton.mp h]
        exact nodes_subset_of_child (List.mem_cons_of_mem _ List.mem_cons_self)
  | case3 site site' base prop key ih =>
      rcases List.mem_append.mp h with h | h
      · refine List.Subset.trans (ih h) ?_
        exact List.Subset.trans (nodes_subset_of_child (e := .member site' base prop)
          List.mem_cons_self) (nodes_subset_of_child List.mem_cons_self)
      · rw [List.mem_singleton.mp h]
        exact nodes_subset_of_child (List.mem_cons_of_mem _ List.mem_cons_self)
  | case4 e hmember hindex hcall =>
      unfold keys at h
      split at h
      · next site base prop => exact absurd rfl (hmember site base prop)
      · next site base key => exact absurd rfl (hindex site base key)
      · next site site' base prop key => exact absurd rfl (hcall site site' base prop key)
      · cases h

theorem nodes_subset_of_part (h : e' ∈ e.parts) : e'.nodes ⊆ e.nodes := by
  have hchildren : ∀ {e : Expr}, e' ∈ e.children → e'.nodes ⊆ e.nodes := nodes_subset_of_child
  unfold parts at h
  split at h
  · exact hchildren h
  · exact hchildren h
  · next site site' base prop args =>
    have hbase : base.nodes ⊆ (call site (.member site' base prop) args).nodes :=
      List.Subset.trans (nodes_subset_of_child (e := .member site' base prop) List.mem_cons_self)
        (nodes_subset_of_child List.mem_cons_self)
    rcases List.mem_append.mp h with h | h
    · exact List.Subset.trans (nodes_subset_of_key h) hbase
    · rcases List.mem_cons.mp h with rfl | h
      · exact hbase
      · exact hchildren (List.mem_cons_of_mem _ h)
  · next site op target value =>
    rcases List.mem_append.mp h with h | h
    · exact List.Subset.trans (nodes_subset_of_key h) (nodes_subset_of_child List.mem_cons_self)
    · exact hchildren (List.mem_cons_of_mem _ h)
  · exact List.Subset.trans (nodes_subset_of_key h) (nodes_subset_of_child List.mem_cons_self)
  · exact hchildren h
  · exact hchildren h
  · exact hchildren h
  · exact hchildren h
  · cases h

theorem WritesOnly.part (h : e.WritesOnly names allowed) (hpart : e' ∈ e.parts) :
    e'.WritesOnly names allowed :=
  fun n hn => h n (nodes_subset_of_part hpart hn)

theorem WritesOnly.self {x : Name} (h : e.WritesOnly names allowed)
    (hx : e.written? names = some x) : allowed x :=
  h e (e.nodes_eq ▸ List.mem_cons_self) x hx

end Expr

namespace Run

variable {α β : Type} {names : NameTable} {allowed : Name → Prop}
  {H : List Value → List Value → Prop} {I : Machine → Prop} {us ws held : List Value}
  {m m' : Machine} {v : Value} {k : String} {span : Span} {p : Place}

/-! ### Runs that agree -/

/-- From a machine with `I` the two runs come to the same. If they end well, the result has `Q` and
the machine still has `I`. -/
def Agree (I : Machine → Prop) (Q : α → Prop) (x y : Run α) : Prop :=
  ∀ m, I m → x m = y m ∧ ∀ a m', x m = .ok a m' → Q a ∧ I m'

theorem Agree.bind {Q : α → Prop} {R : β → Prop} {x y : Run α} {f g : α → Run β}
    (hx : Agree I Q x y) (hf : ∀ a, Q a → Agree I R (f a) (g a)) :
    Agree I R (x >>= f) (y >>= g) := by
  intro m hm
  obtain ⟨heq, hok⟩ := hx m hm
  rw [bind_apply, bind_apply, ← heq]
  cases hrun : x m with
  | error e m₁ => exact ⟨rfl, by simp⟩
  | ok a m₁ =>
      obtain ⟨hQ, hI⟩ := hok a m₁ hrun
      exact hf a hQ m₁ hI

theorem Agree.still {x : Run α} (hx : Still x) : Agree I (fun _ => True) x x :=
  fun _ hm => ⟨rfl, fun _ _ hrun => ⟨trivial, hx.ok hrun ▸ hm⟩⟩

theorem Agree.pure {Q : α → Prop} {a : α} (h : Q a) : Agree I Q (Pure.pure a) (Pure.pure a) := by
  intro m hm
  refine ⟨rfl, fun b m' hrun => ?_⟩
  cases hrun
  exact ⟨h, hm⟩

theorem Agree.fail {Q : α → Prop} {fault : EvalFault} :
    Agree I Q (Run.fail fault span) (Run.fail fault span) :=
  fun _ _ => ⟨rfl, by simp⟩

/-! ### Held values that no write can tell apart -/

/-- Two rows of held values that are related by `H` make no difference to the writes through allowed
variables, and the machines that occur have `I`. -/
structure Bystanders (allowed : Name → Prop) (H : List Value → List Value → Prop)
    (I : Machine → Prop) : Prop where
  cons : ∀ {us ws} v, H us ws → H (v :: us) (v :: ws)
  alloc : ∀ {m} body, I m → I { m with store := (m.store.alloc body).2 }
  wrote : ∀ {us ws new w m m'}, H us ws → I m → allowed w.root → Wrote us new w m m' → I m'
  claims : ∀ {us ws m x b}, H us ws → I m → allowed x → m.scopes.find? x = some b → ∀ steps,
    m.store.SameClaims (m.store.handles (m.scopes.values ++ us))
      (m.store.handles (m.scopes.values ++ ws)) b.value steps

section

variable (hB : Bystanders allowed H I)

include hB

theorem Bystanders.append (vs : List Value) (h : H us ws) : H (vs ++ us) (vs ++ ws) := by
  induction vs with
  | nil => exact h
  | cons v vs ih => exact hB.cons v ih

theorem Bystanders.agree_alloc (body : Body) :
    Agree I (fun _ => True) (Run.alloc body) (Run.alloc body) := by
  intro m hm
  refine ⟨rfl, fun a m' hrun => ?_⟩
  cases hrun
  exact ⟨trivial, hB.alloc body hm⟩

theorem Bystanders.agree_writePlace (h : H us ws) (hroot : allowed p.root) :
    Agree I (fun _ => True) (writePlace names us p v span) (writePlace names ws p v span) := by
  intro m hm
  refine ⟨writePlace_congr fun steps k b _ hb => ?_, fun a m' hrun => ?_⟩
  · exact hB.claims (hB.cons v h) hm hroot hb _
  · exact ⟨trivial, hB.wrote (hB.cons v h) hm hroot (writePlace_ok hrun)⟩

theorem Bystanders.agree_mapSet (h : H us ws) (hroot : allowed p.root) :
    Agree I (fun _ => True) (mapSet names us p k v span) (mapSet names ws p k v span) := by
  intro m hm
  refine ⟨mapSet_congr fun b hb => ?_, fun a m' hrun => ?_⟩
  · exact hB.claims (hB.cons v h) hm hroot hb _
  · exact ⟨trivial, hB.wrote (hB.cons v h) hm hroot (mapSet_ok hrun).1⟩

theorem Bystanders.agree_mapDelete (h : H us ws) (hroot : allowed p.root) :
    Agree I (fun _ => True) (mapDelete names us p k span) (mapDelete names ws p k span) := by
  intro m hm
  refine ⟨mapDelete_congr fun b hb => ?_, fun a m' hrun => ?_⟩
  · exact hB.claims h hm hroot hb _
  · exact ⟨trivial, hB.wrote h hm hroot (mapDelete_ok hrun).1⟩

end

/-! ### Expressions -/

def Bystanders.Eval (names : NameTable) (allowed : Name → Prop)
    (H : List Value → List Value → Prop) (I : Machine → Prop) (us : List Value) (e : Expr) : Prop :=
  e.WritesOnly names allowed → ∀ ws, H us ws →
    Agree I (fun _ => True) (eval names us e) (eval names ws e)

def Bystanders.EvalList (names : NameTable) (allowed : Name → Prop)
    (H : List Value → List Value → Prop) (I : Machine → Prop) (us : List Value) (es : List Expr) :
    Prop :=
  (∀ e ∈ es, e.WritesOnly names allowed) → ∀ ws, H us ws →
    Agree I (fun _ => True) (evalList names us es) (evalList names ws es)

def Bystanders.EvalEntries (names : NameTable) (allowed : Name → Prop)
    (H : List Value → List Value → Prop) (I : Machine → Prop) (us : List Value)
    (fields : Table Value) (es : List Property) : Prop :=
  (∀ e ∈ es, e.value.WritesOnly names allowed) → ∀ ws, H us ws →
    Agree I (fun _ => True) (evalEntries names us fields es) (evalEntries names ws fields es)

/-- The same for the keys of a place, which starts at the root of its expression. -/
def Bystanders.EvalPlace (names : NameTable) (allowed : Name → Prop)
    (H : List Value → List Value → Prop) (I : Machine → Prop) (us : List Value) (e : Expr) : Prop :=
  (∀ k ∈ e.keys, k.WritesOnly names allowed) → ∀ ws, H us ws →
    Agree I (fun p => e.root? = some p.root) (place names us e) (place names ws e)

section Cases

variable {site site' : Site} {e base index left right target value : Expr} {prop : Name}

theorem Bystanders.agree_keyed (ih : EvalPlace names allowed H I us base)
    (ihindex : Eval names allowed H I us index)
    (hbase : ∀ k ∈ base.keys, k.WritesOnly names allowed) (hindex : index.WritesOnly names allowed)
    (h : H us ws) :
    Agree I (fun a => base.root? = some a.1.root) (keyed names us base index)
      (keyed names ws base index) := by
  refine (ih hbase ws h).bind fun p hp => ?_
  refine (ihindex hindex ws h).bind fun a _ => ?_
  exact (Agree.still (still_key a _)).bind fun k _ => .pure hp

theorem Bystanders.eval_literal {a : Scalar} (h : e.literal? names = some a) :
    Eval names allowed H I us e := by
  intro _ ws _
  rw [Run.eval_literal h, Run.eval_literal h]
  exact .pure trivial

theorem Bystanders.eval_ident {name : Name} : Eval names allowed H I us (.ident site name) := by
  intro _ ws _
  rw [eval, eval]
  exact .still (still_lookup _ _ _)

theorem Bystanders.eval_fail {fault : EvalFault}
    (h : ∀ us, eval names us e = Run.fail fault span) : Eval names allowed H I us e := by
  intro _ ws _
  rw [h, h]
  exact .fail

theorem Bystanders.eval_member (ih : Eval names allowed H I us base) :
    Eval names allowed H I us (.member site base prop) := by
  intro haccept ws h
  rw [eval, eval]
  exact (ih (haccept.part (by simp [Expr.parts])) ws h).bind fun v _ =>
    .still (still_property _ _ _)

theorem Bystanders.eval_unary {op : UnaryOp} (ih : Eval names allowed H I us e) :
    Eval names allowed H I us (.unary site op e) := by
  intro haccept ws h
  rw [eval, eval]
  refine (ih (haccept.part (by simp [Expr.parts])) ws h).bind fun v _ => ?_
  exact .still (still_get.bind fun m => still_pure _)

theorem Bystanders.place_root {name : Name} :
    EvalPlace names allowed H I us (.ident site name) := by
  intro _ ws _
  rw [place, place]
  exact .pure rfl

theorem Bystanders.place_field (ih : EvalPlace names allowed H I us base) :
    EvalPlace names allowed H I us (.member site base prop) := by
  intro hkeys ws h
  rw [place, place]
  exact (ih hkeys ws h).bind fun p hp => .pure hp

theorem Bystanders.place_item (ih : EvalPlace names allowed H I us base)
    (ihindex : Eval names allowed H I us index) :
    EvalPlace names allowed H I us (.index site base index) := by
  intro hkeys ws h
  rw [place_index, place_index]
  exact (agree_keyed ih ihindex (fun k hk => hkeys k (List.mem_append_left _ hk))
    (hkeys index (by simp [Expr.keys])) h).bind fun a ha => .pure ha

theorem Bystanders.place_entry (hget : names.lookup prop = "get")
    (ih : EvalPlace names allowed H I us base) (ihindex : Eval names allowed H I us index) :
    EvalPlace names allowed H I us (.call site (.member site' base prop) [index]) := by
  intro hkeys ws h
  rw [place_get hget, place_get hget]
  exact (agree_keyed ih ihindex (fun k hk => hkeys k (List.mem_append_left _ hk))
    (hkeys index (by simp [Expr.keys])) h).bind fun a ha => .pure ha

theorem Bystanders.place_fail {fault : EvalFault}
    (h : ∀ us, place names us e = Run.fail fault span) : EvalPlace names allowed H I us e := by
  intro _ ws _
  rw [h, h]
  exact .fail

theorem Bystanders.evalList_nil : EvalList names allowed H I us [] := by
  intro _ ws _
  rw [evalList, evalList]
  exact .pure trivial

theorem Bystanders.evalEntries_nil {fields : Table Value} :
    EvalEntries names allowed H I us fields [] := by
  intro _ ws _
  rw [evalEntries, evalEntries]
  exact .pure trivial

variable (hB : Bystanders allowed H I)

include hB

theorem Bystanders.eval_index (ih : Eval names allowed H I us base)
    (ihindex : ∀ v, Eval names allowed H I (v :: us) index) :
    Eval names allowed H I us (.index site base index) := by
  intro haccept ws h
  rw [eval, eval]
  refine (ih (haccept.part (by simp [Expr.parts])) ws h).bind fun v _ => ?_
  refine (ihindex v (haccept.part (by simp [Expr.parts])) _ (hB.cons v h)).bind fun k _ => ?_
  exact .still ((still_key _ _).bind fun k => still_property _ _ _)

theorem Bystanders.eval_set (hset : names.lookup prop = "set")
    (ih : EvalPlace names allowed H I us base) (ihindex : Eval names allowed H I us index)
    (ihvalue : Eval names allowed H I us value) :
    Eval names allowed H I us (.call site (.member site' base prop) [index, value]) := by
  intro haccept ws h
  rw [Run.eval_set hset, Run.eval_set hset]
  refine (agree_keyed ih ihindex (fun k hk => haccept.part (List.mem_append_left _ hk))
    (haccept.part (by simp [Expr.parts])) h).bind fun a ha => ?_
  refine (ihvalue (haccept.part (by simp [Expr.parts])) ws h).bind fun v _ => ?_
  refine hB.agree_mapSet h (haccept.self ?_)
  rw [← ha]
  simp [Expr.written?, hset]

theorem Bystanders.eval_delete (hdelete : names.lookup prop = "delete")
    (ih : EvalPlace names allowed H I us base) (ihindex : Eval names allowed H I us index) :
    Eval names allowed H I us (.call site (.member site' base prop) [index]) := by
  intro haccept ws h
  rw [Run.eval_delete hdelete, Run.eval_delete hdelete]
  refine (agree_keyed ih ihindex (fun k hk => haccept.part (List.mem_append_left _ hk))
    (haccept.part (by simp [Expr.parts])) h).bind fun a ha => ?_
  refine hB.agree_mapDelete h (haccept.self ?_)
  rw [← ha]
  simp [Expr.written?, hdelete]

theorem Bystanders.eval_method {args : List Expr} (hreads : ReadsOnly names prop args)
    (ih : Eval names allowed H I us base)
    (ihargs : ∀ v, EvalList names allowed H I (v :: us) args) :
    Eval names allowed H I us (.call site (.member site' base prop) args) := by
  intro haccept ws h
  rw [Run.eval_method hreads, Run.eval_method hreads]
  refine (ih (haccept.part (by simp [Expr.parts])) ws h).bind fun receiver _ => ?_
  refine (ihargs receiver (fun e he => haccept.part (by simp [Expr.parts, he])) _
    (hB.cons receiver h)).bind fun vs _ => ?_
  exact .still (still_method _ _ _ _)

theorem Bystanders.eval_assign {op : AssignOp} (ih : EvalPlace names allowed H I us target)
    (ihvalue : Eval names allowed H I us value) :
    Eval names allowed H I us (.assign site op target value) := by
  intro haccept ws h
  rw [eval, eval]
  refine (ih (fun k hk => haccept.part (List.mem_append_left _ hk)) ws h).bind fun p hp => ?_
  refine (ihvalue (haccept.part (by simp [Expr.parts])) ws h).bind fun v _ => ?_
  have hwrite : ∀ new, Agree I (fun _ => True)
      (do writePlace names (v :: us) p new site.span; pure new)
      (do writePlace names (v :: ws) p new site.span; pure new) := fun new =>
    (hB.agree_writePlace (hB.cons v h) (haccept.self hp)).bind fun _ _ => .pure trivial
  cases op with
  | plain => exact hwrite v
  | compound op =>
      refine (Agree.still (still_readPlace p _)).bind fun old _ => ?_
      exact (Agree.still still_get).bind fun m _ => hwrite _

theorem Bystanders.eval_step {op : StepOp} {fixity : Fixity}
    (ih : EvalPlace names allowed H I us target) :
    Eval names allowed H I us (.step site op fixity target) := by
  intro haccept ws h
  rw [eval, eval]
  refine (ih (fun k hk => haccept.part hk) ws h).bind fun p hp => ?_
  refine (Agree.still (still_readPlace p _)).bind fun v _ => ?_
  refine (Agree.still still_get).bind fun m _ => ?_
  exact (hB.agree_writePlace h (haccept.self hp)).bind fun _ _ => .pure trivial

theorem Bystanders.eval_binary {op : BinaryOp} (ih : Eval names allowed H I us left)
    (ihright : ∀ v, Eval names allowed H I (v :: us) right) :
    Eval names allowed H I us (.binary site op left right) := by
  intro haccept ws h
  rw [eval, eval]
  refine (ih (haccept.part (by simp [Expr.parts])) ws h).bind fun v _ => ?_
  refine (ihright v (haccept.part (by simp [Expr.parts])) _ (hB.cons v h)).bind fun w _ => ?_
  exact .still (still_get.bind fun m => still_pure _)

theorem Bystanders.eval_array {items : List Expr} (ih : EvalList names allowed H I us items) :
    Eval names allowed H I us (.array site items) := by
  intro haccept ws h
  rw [eval, eval]
  exact (ih (fun e he => haccept.part he) ws h).bind fun vs _ => hB.agree_alloc _

theorem Bystanders.eval_object {entries : List Property}
    (ih : EvalEntries names allowed H I us .empty entries) :
    Eval names allowed H I us (.object site entries) := by
  intro haccept ws h
  rw [eval, eval]
  exact Agree.bind (ih (fun e he => haccept.part (List.mem_map_of_mem he)) ws h) fun fields _ =>
    hB.agree_alloc _

theorem Bystanders.evalList_cons {es : List Expr} (ih : Eval names allowed H I us e)
    (ihes : ∀ v, EvalList names allowed H I (v :: us) es) :
    EvalList names allowed H I us (e :: es) := by
  intro haccept ws h
  rw [evalList, evalList]
  obtain ⟨he, hes⟩ := List.forall_mem_cons.mp haccept
  refine (ih he ws h).bind fun v _ => ?_
  exact (ihes v hes _ (hB.cons v h)).bind fun vs _ => .pure trivial

theorem Bystanders.evalEntries_cons {fields : Table Value} {name : Name} {rest : List Property}
    (ih : Eval names allowed H I (fields.values ++ us) value)
    (ihrest : ∀ v, EvalEntries names allowed H I us (fields.insert (names.lookup name) v) rest) :
    EvalEntries names allowed H I us fields (.entry name span value :: rest) := by
  intro haccept ws h
  rw [evalEntries, evalEntries]
  obtain ⟨he, hes⟩ := List.forall_mem_cons.mp haccept
  exact Agree.bind (ih he _ (hB.append fields.values h)) fun v _ => ihrest v hes ws h

end Cases

theorem Bystanders.eval_all (hB : Bystanders allowed H I) :
    (∀ us e, Eval names allowed H I us e) ∧
    (∀ us fields es, EvalEntries names allowed H I us fields es) ∧
    (∀ us es, EvalList names allowed H I us es) ∧
    ∀ us e, EvalPlace names allowed H I us e := by
  apply eval_induct names
  case literal => exact eval_literal
  case ident => exact eval_ident
  case member => exact eval_member
  case index => exact hB.eval_index
  case set => exact hB.eval_set
  case delete => exact hB.eval_delete
  case method => exact hB.eval_method
  case notCallable => exact eval_fail
  case assign => exact hB.eval_assign
  case step => exact hB.eval_step
  case binary => exact hB.eval_binary
  case unary => exact eval_unary
  case array => exact hB.eval_array
  case object => exact hB.eval_object
  case root => exact place_root
  case field => exact place_field
  case item => exact place_item
  case entry => exact place_entry
  case notAPlace => exact place_fail
  case nil => exact evalList_nil
  case cons => exact hB.evalList_cons
  case noEntries => exact evalEntries_nil
  case addEntry => exact hB.evalEntries_cons

/-- The evaluation of an expression does not depend on handles that stand by. -/
theorem Bystanders.eval (hB : Bystanders allowed H I) (us ws : List Value) (h : H us ws) {e : Expr}
    (he : e.WritesOnly names allowed) :
    Agree I (fun _ => True) (Run.eval names us e) (Run.eval names ws e) :=
  hB.eval_all.1 us e he ws h

theorem Bystanders.place (hB : Bystanders allowed H I) (us ws : List Value) (h : H us ws) {e : Expr}
    (he : ∀ k ∈ e.keys, k.WritesOnly names allowed) :
    Agree I (fun p => e.root? = some p.root) (Run.place names us e) (Run.place names ws e) :=
  hB.eval_all.2.2.2 us e he ws h

end Run

end PathCopy
