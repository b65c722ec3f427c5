import PathCopy.Proofs.Runs

/-!
The evaluation of expressions as an induction, and what a run of a place has done when it ends well.
A case stands for what the evaluator tells apart: all literals are one case, and so is whatever
names no place.
-/

namespace PathCopy

/-- The scalar that a literal stands for. -/
def Expr.literal? (names : NameTable) : Expr → Option Scalar
  | .number _ bits => some (.number (Float.ofBits bits))
  | .string _ text => some (.text (names.lookup text))
  | .bool _ b => some (.bool b)
  | .null _ => some .null
  | .undefined _ => some .undefined
  | _ => none

/-- The keys that are evaluated for an expression as a place. -/
def Expr.keys : Expr → List Expr
  | .member _ base _ => base.keys
  | .index _ base key => base.keys ++ [key]
  | .call _ (.member _ base _) [key] => base.keys ++ [key]
  | _ => []

/-- What each kind of statement has if those inside it have it, all statements have. -/
theorem stmts_induct {P : Stmt → Prop} {Q : List Stmt → Prop}
    (expr : ∀ span value, P (.expr span value))
    (declare : ∀ span name assignable initial, P (.declare span name assignable initial))
    (ret : ∀ span value, P (.ret span value))
    (block : ∀ span first body, Q body → P (.block span first body))
    (empty : ∀ span, P (.empty span)) (nil : Q [])
    (cons : ∀ s rest, P s → Q rest → Q (s :: rest)) : (∀ s, P s) ∧ ∀ ss, Q ss :=
  ⟨fun s => @Stmt.rec P Q expr declare ret block empty nil cons s,
    fun ss => @Stmt.rec_1 P Q expr declare ret block empty nil cons ss⟩

namespace Run

variable {names : NameTable} {held : List Value} {site site' : Site} {prop : Name} {m m' : Machine}

/-! ### What is evaluated first -/

section Equations

attribute [local simp] eval place

/-- The place of `base`, and after it the key of an access or a method call on it. -/
def keyed (names : NameTable) (held : List Value) (base index : Expr) : Run (Place × String) := do
  let p ← place names held base
  let k ← eval names held index
  let k ← key k index.span
  pure (p, k)

theorem keyed_ok {base index : Expr} {a : Place × String}
    (h : keyed names held base index m = .ok a m') :
    ∃ m₁ v, place names held base m = .ok a.1 m₁ ∧ eval names held index m₁ = .ok v m' ∧
      v.key? = some a.2 := by
  obtain ⟨p, m₁, hplace, h⟩ := bind_ok h
  obtain ⟨v, m₂, hindex, h⟩ := bind_ok h
  obtain ⟨k, m₃, hkey, h⟩ := bind_ok h
  cases h
  cases (still_key _ _).ok hkey
  exact ⟨m₁, v, hplace, hindex, key_ok hkey⟩

theorem eval_literal {e : Expr} {a : Scalar} (h : e.literal? names = some a) :
    eval names held e = pure (.scalar a) := by
  cases e <;> cases h <;> simp

theorem eval_set {base index value : Expr} (hset : names.lookup prop = "set") :
    eval names held (.call site (.member site' base prop) [index, value]) =
      keyed names held base index >>= fun a =>
        eval names held value >>= fun v => mapSet names held a.1 a.2 v site.span := by
  simp [hset, keyed]

theorem eval_delete {base index : Expr} (hdelete : names.lookup prop = "delete") :
    eval names held (.call site (.member site' base prop) [index]) =
      keyed names held base index >>= fun a => mapDelete names held a.1 a.2 site.span := by
  simp [hdelete, keyed]

/-- A method call with this property and these arguments is neither a `set` nor a `delete`. -/
def ReadsOnly (names : NameTable) (prop : Name) (args : List Expr) : Prop :=
  (∀ index value, names.lookup prop = "set" → args = [index, value] → False) ∧
    ∀ index, names.lookup prop = "delete" → args = [index] → False

theorem readsOnly_get {args : List Expr} (hget : names.lookup prop = "get") :
    ReadsOnly names prop args :=
  ⟨by simp [hget], by simp [hget]⟩

theorem eval_method {base : Expr} {args : List Expr} (h : ReadsOnly names prop args) :
    eval names held (.call site (.member site' base prop) args) =
      eval names held base >>= fun receiver => evalList names (receiver :: held) args >>= fun vs =>
        method receiver (names.lookup prop) vs site.span := by
  rw [eval.eq_11 _ _ _ _ _ _ _ h.1 h.2]

theorem eval_notCallable {callee : Expr} {args : List Expr}
    (h : ∀ site' base prop, callee ≠ .member site' base prop) :
    eval names held (.call site callee args) = fail .notCallable site.span := by
  rw [eval]
  exact fun site' base prop heq => h site' base prop heq

theorem place_index {base index : Expr} :
    place names held (.index site base index) = keyed names held base index >>= fun a =>
      pure { a.1 with steps := a.1.steps ++ [.key a.2] } := by
  simp [keyed]

theorem place_get {base index : Expr} (hget : names.lookup prop = "get") :
    place names held (.call site (.member site' base prop) [index]) =
      keyed names held base index >>= fun a =>
        pure { a.1 with steps := a.1.steps ++ [.entry a.2] } := by
  simp [hget, keyed]

end Equations

/-! ### The induction -/

/-- What each construct of the language keeps, the evaluation of every expression has. -/
theorem eval_induct (names : NameTable) {Eval : List Value → Expr → Prop}
    {EvalEntries : List Value → Table Value → List Property → Prop}
    {EvalList : List Value → List Expr → Prop} {EvalPlace : List Value → Expr → Prop}
    (literal : ∀ {held e a}, e.literal? names = some a → Eval held e)
    (ident : ∀ {held site name}, Eval held (.ident site name))
    (member : ∀ {held site base prop}, Eval held base → Eval held (.member site base prop))
    (index : ∀ {held site base index}, Eval held base → (∀ v, Eval (v :: held) index) →
      Eval held (.index site base index))
    (set : ∀ {held site site' base prop index value}, names.lookup prop = "set" →
      EvalPlace held base → Eval held index → Eval held value →
      Eval held (.call site (.member site' base prop) [index, value]))
    (delete : ∀ {held site site' base prop index}, names.lookup prop = "delete" →
      EvalPlace held base → Eval held index →
      Eval held (.call site (.member site' base prop) [index]))
    (method : ∀ {held site site' base prop args}, ReadsOnly names prop args → Eval held base →
      (∀ receiver, EvalList (receiver :: held) args) →
      Eval held (.call site (.member site' base prop) args))
    (notCallable : ∀ {held site callee args},
      (∀ us, eval names us (.call site callee args) = fail .notCallable site.span) →
      Eval held (.call site callee args))
    (assign : ∀ {held site op target value}, EvalPlace held target → Eval held value →
      Eval held (.assign site op target value))
    (step : ∀ {held site op fixity target}, EvalPlace held target →
      Eval held (.step site op fixity target))
    (binary : ∀ {held site op left right}, Eval held left → (∀ v, Eval (v :: held) right) →
      Eval held (.binary site op left right))
    (unary : ∀ {held site op operand}, Eval held operand → Eval held (.unary site op operand))
    (array : ∀ {held site items}, EvalList held items → Eval held (.array site items))
    (object : ∀ {held site entries}, EvalEntries held .empty entries →
      Eval held (.object site entries))
    (root : ∀ {held site name}, EvalPlace held (.ident site name))
    (field : ∀ {held site base prop}, EvalPlace held base → EvalPlace held (.member site base prop))
    (item : ∀ {held site base index}, EvalPlace held base → Eval held index →
      EvalPlace held (.index site base index))
    (entry : ∀ {held site site' base prop index}, names.lookup prop = "get" → EvalPlace held base →
      Eval held index → EvalPlace held (.call site (.member site' base prop) [index]))
    (notAPlace : ∀ {held e}, (∀ us, place names us e = fail .notAPlace e.span) → EvalPlace held e)
    (nil : ∀ {held}, EvalList held [])
    (cons : ∀ {held e es}, Eval held e → (∀ v, EvalList (v :: held) es) → EvalList held (e :: es))
    (noEntries : ∀ {held fields}, EvalEntries held fields [])
    (addEntry : ∀ {held fields name span value rest}, Eval (fields.values ++ held) value →
      (∀ v, EvalEntries held (fields.insert (names.lookup name) v) rest) →
      EvalEntries held fields (.entry name span value :: rest)) :
    (∀ held e, Eval held e) ∧ (∀ held fields es, EvalEntries held fields es) ∧
      (∀ held es, EvalList held es) ∧ ∀ held e, EvalPlace held e := by
  apply eval.mutual_induct names
  · exact fun held site bits => literal rfl
  · exact fun held site text => literal rfl
  · exact fun held site b => literal rfl
  · exact fun held site => literal rfl
  · exact fun held site => literal rfl
  · exact fun held site name => ident
  · exact fun held site base prop => member
  · exact fun held site base key => index
  · exact fun held site site' base prop key value => set
  · exact fun held site site' base prop key => delete
  · exact fun held site site' base prop args hset hdelete => method ⟨hset, hdelete⟩
  · exact fun held site callee args hcallee => notCallable fun us => eval_notCallable hcallee
  · exact fun held site op target value => assign
  · exact fun held site op fixity target => step
  · exact fun held site op left right => binary
  · exact fun held site op operand => unary
  · exact fun held site items => array
  · exact fun held site entries => object
  · exact fun held site name => root
  · exact fun held site base prop => field
  · exact fun held site base key => item
  · exact fun held site site' base prop key => entry
  -- A call of another method than `get` is no place, and neither is any form without a case above.
  · exact fun held site site' base prop key hget =>
      notAPlace fun us => by rw [place, if_neg hget]; rfl
  · exact fun held e hident hmember hindex hcall =>
      notAPlace fun us => place.eq_5 _ _ _ hident hmember hindex hcall
  · exact fun held => nil
  · exact fun held e es => cons
  · exact fun held fields => noEntries
  · exact fun held fields name span value rest => addEntry

/-- The evaluation of a place ends well for a variable, and for an access or a `get` on a place. -/
theorem place_induct {P : Expr → Place → Machine → Prop}
    (root : ∀ site name, P (.ident site name) ⟨name, []⟩ m)
    (field : ∀ site base prop p m', place names held base m = .ok p m' → P base p m' →
      P (.member site base prop)
        { p with steps := p.steps ++ [.key (names.lookup prop)] } m')
    (item : ∀ site base index p m₁ v m' k, place names held base m = .ok p m₁ →
      eval names held index m₁ = .ok v m' → v.key? = some k → P base p m₁ →
      P (.index site base index) { p with steps := p.steps ++ [.key k] } m')
    (entry : ∀ site site' base prop index p m₁ v m' k, names.lookup prop = "get" →
      place names held base m = .ok p m₁ → eval names held index m₁ = .ok v m' →
      v.key? = some k → P base p m₁ →
      P (.call site (.member site' base prop) [index])
        { p with steps := p.steps ++ [.entry k] } m')
    {e : Expr} {p : Place} (h : place names held e m = .ok p m') : P e p m' := by
  induction e using Expr.keys.induct generalizing p m' with
  | case1 site base prop ih =>
      rw [place] at h
      obtain ⟨q, m₁, hbase, h⟩ := bind_ok h
      cases h
      exact field site base prop q m' hbase (ih hbase)
  | case2 site base index ih =>
      rw [place_index] at h
      obtain ⟨a, m₁, hkeyed, h⟩ := bind_ok h
      cases h
      obtain ⟨m₂, v, hbase, hindex, hk⟩ := keyed_ok hkeyed
      exact item site base index a.1 m₂ v m' a.2 hbase hindex hk (ih hbase)
  | case3 site site' base prop index ih =>
      by_cases hget : names.lookup prop = "get"
      · rw [place_get hget] at h
        obtain ⟨a, m₁, hkeyed, h⟩ := bind_ok h
        cases h
        obtain ⟨m₂, v, hbase, hindex, hk⟩ := keyed_ok hkeyed
        exact entry site site' base prop index a.1 m₂ v m' a.2 hget hbase hindex hk (ih hbase)
      · rw [place, if_neg hget] at h
        cases h
  | case4 e hmember hindex hcall =>
      by_cases hident : ∃ site name, e = .ident site name
      · obtain ⟨site, name, rfl⟩ := hident
        rw [place] at h
        cases h
        exact root site name
      · rw [place.eq_5 _ _ _ (fun site name heq => hident ⟨site, name, heq⟩) hmember hindex
          hcall] at h
        cases h

end Run

end PathCopy
