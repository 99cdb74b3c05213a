import GrammarArt.Proofs.Binary32.Arithmetic
import GrammarArt.Proofs.Shader.Meaning
import GrammarArt.Proofs.Shader.Reading

/-! # The value of a term

The expression of a term is evaluated part by part (`Evaluates`), and the term of a node has
the value that `combineRaw` computes from the colors of the children (`evaluates_nodeTerm`),
wherever their names stand for these colors.

Kind by kind this is a matter of following the term, but for three of them: `mix` has the
factors of its products in another order, `sqrt` has its maximum in other words, and `mod`
divides by one where it takes the dividend.
-/
namespace GrammarArt.Shader

open GrammarArt.Shader.Language
open Binary32

variable {env : Environment} {a b c : Term} {u v w x : Value} {p q r : Color}

/-- The term has a value where names stand for values. -/
def Evaluates (env : Environment) (t : Term) (v : Value) : Prop := t.expr.eval env = some v

/-! ### Expressions from the values of their parts -/

section

variable {e i : Expr} {es : List Expr} {vs : List Value}

theorem eval_member {name : String} (he : e.eval env = some u) (h : u.field name = some v) :
    (Expr.member e name).eval env = some v := by
  show (e.eval env).bind (fun u => u.field name) = some v
  rw [he]
  exact h

theorem eval_index (he : e.eval env = some u) (hi : i.eval env = some v)
    (h : u.item v = some w) : (Expr.index e i).eval env = some w := by
  show (e.eval env).bind (fun u => (i.eval env).bind fun v => u.item v) = some w
  rw [he, hi]
  exact h

theorem find?_function (f : Function) : functions.find? (fun g => g.text = f.text) = some f := by
  cases f <;> rfl

theorem evalAll_cons (he : e.eval env = some v) (hes : evalAll env es = some vs) :
    evalAll env (e :: es) = some (v :: vs) := by
  show (e.eval env).bind (fun v => (evalAll env es).bind fun vs => some (v :: vs)) = _
  rw [he, hes]
  rfl

/-- A call has the value of its function for the values of its arguments. -/
theorem eval_call (f : Function) (hargs : evalAll env es = some vs) (h : f.apply vs = some x) :
    (Expr.call f.text es).eval env = some x := by
  show (functions.find? fun g => g.text = f.text).bind
    (fun g => (evalAll env es).bind fun vs => g.apply vs) = some x
  rw [find?_function, hargs]
  exact h

end

/-! ### Terms of every shape -/

theorem evaluates_node {id : Nat} (h : env (nodeName id) = some v) : Evaluates env (.node id) v :=
  h

theorem field_axis (axis : Axis) (color : Color) :
    (Value.vector color).field axis.text = some (.scalar (Value.component axis color)) := by
  cases axis with
  | x | y | z => rfl

theorem evaluates_member {name : String} {color : Color} (h : env name = some (.vector color))
    (axis : Axis) : (Expr.member (.name name) axis.text).eval env =
      some (.scalar (Value.component axis color)) :=
  eval_member h (field_axis axis color)

theorem evaluates_channel {id : Nat} {color : Color}
    (h : env (nodeName id) = some (.vector color)) (axis : Axis) :
    Evaluates env (.channel id axis) (.scalar (Value.component axis color)) :=
  evaluates_member h axis

theorem evaluates_point {color : Color} (h : env pointName = some (.vector color)) (axis : Axis) :
    Evaluates env (.point axis) (.scalar (Value.component axis color)) :=
  evaluates_member h axis

theorem exists_feedRow (feed : Feed) (k : Variable) : ∃ row,
    (feedRows feed)[k.slot / 4]? = some row ∧ row[k.slot % 4]? = some (feed.get k) := by
  cases k with
  | _ => exact ⟨_, rfl, rfl⟩

theorem evaluates_feed {feed : Feed} (h : env paramsName = some (.inputs (feedRows feed)))
    (k : Variable) : Evaluates env (.feed k.slot) (.scalar (feed.get k)) := by
  obtain ⟨row, hrow, hitem⟩ := exists_feedRow feed k
  have hrows : (Expr.member (.name paramsName) "vars").eval env = some (.rows (feedRows feed)) :=
    eval_member h rfl
  have hvalues : (Expr.index (.member (.name paramsName) "vars") (.whole (k.slot / 4))).eval env =
      some (.row row) :=
    eval_index hrows rfl (congrArg (Option.map Value.row) hrow)
  exact eval_index hvalues rfl (congrArg (Option.map Value.scalar) hitem)

theorem evaluates_literal {n : Float32} (h : n.isFinite = true) :
    Evaluates env (.literal n) (.scalar n) := by
  have hn := ofMagnitude_magnitude h
  show Expr.eval env (if negative n then .negate (.float (ofMagnitude false (magnitude n)))
    else .float (ofMagnitude false (magnitude n))) = _
  cases hsign : negative n with
  | false =>
    rw [hsign] at hn
    exact congrArg (fun m => some (Value.scalar m)) hn
  | true =>
    rw [hsign, ← neg_ofMagnitude_false (magnitude_lt h)] at hn
    exact congrArg (fun m => some (Value.scalar m)) hn

theorem evaluates_negate (ha : Evaluates env a u) (h : u.map (fun n => -n) = some v) :
    Evaluates env (.negate a) v := by
  show (a.expr.eval env).bind (fun u => u.map fun n => -n) = some v
  rw [ha]
  exact h

theorem evaluates_infixed (op : Operator) (ha : Evaluates env a u) (hb : Evaluates env b v)
    (h : op.apply u v = some w) : Evaluates env (.infixed op a b) w := by
  show (a.expr.eval env).bind (fun u => (b.expr.eval env).bind fun v => op.apply u v) = some w
  rw [ha, hb]
  exact h

theorem evaluates_call₁ (f : Function) (ha : Evaluates env a u) (h : f.apply [u] = some x) :
    Evaluates env (.call₁ f a) x :=
  eval_call f (evalAll_cons ha rfl) h

theorem evaluates_call₂ (f : Function) (ha : Evaluates env a u) (hb : Evaluates env b v)
    (h : f.apply [u, v] = some x) : Evaluates env (.call₂ f a b) x :=
  eval_call f (evalAll_cons ha (evalAll_cons hb rfl)) h

theorem evaluates_call₃ (f : Function) (ha : Evaluates env a u) (hb : Evaluates env b v)
    (hc : Evaluates env c w) (h : f.apply [u, v, w] = some x) :
    Evaluates env (.call₃ f a b c) x :=
  eval_call f (evalAll_cons ha (evalAll_cons hb (evalAll_cons hc rfl))) h

/-! ### Parts of the terms of nodes -/

theorem evaluates_splat {n : Float32} (h : Evaluates env a (.scalar n)) :
    Evaluates env (splat a) (.vector (.gray n)) :=
  evaluates_call₁ .vec3 h rfl

/-- A literal as a vector. -/
theorem evaluates_gray {n : Float32} (h : n.isFinite = true) :
    Evaluates env (splat (.literal n)) (.vector (.gray n)) :=
  evaluates_splat (evaluates_literal h)

theorem evaluates_one : Evaluates env (.literal 1) (.scalar 1) := evaluates_literal rfl

theorem isFinite_half : (0.5 : Float32).isFinite = true := by decide

theorem evaluates_place {color : Color} (h : Evaluates env a (.vector color)) :
    Evaluates env (place a) (.vector (color.map fun n => (n + 1) * 0.5)) :=
  evaluates_infixed .mul (evaluates_infixed .add h evaluates_one rfl)
    (evaluates_literal isFinite_half) rfl

theorem evaluates_wave {f : Function} {g : Float32 → Float32} (hf : ∀ v, f.apply [v] = v.map g)
    {id : Nat} {color : Color} (h : env (nodeName id) = some (.vector color))
    {frequency phase : Float32} (hfrequency : frequency.isFinite = true)
    (hphase : phase.isFinite = true) : Evaluates env (wave f id frequency phase)
      (.vector (color.map fun n => g (n * frequency + phase))) := by
  have hscaled := evaluates_infixed .mul (evaluates_node h)
    (evaluates_literal hfrequency) rfl
  have hshifted := evaluates_infixed .add hscaled (evaluates_literal hphase) rfl
  exact evaluates_call₁ f hshifted (hf _)

theorem isFinite_expRange : expRange.1.isFinite = true ∧ expRange.2.isFinite = true := by
  decide

theorem evaluates_expTerm {color : Color} (h : Evaluates env a (.vector color)) :
    Evaluates env (expTerm a) (.vector (color.map scaledExp)) := by
  have htwo : Evaluates env (.literal 2) (.scalar 2) := evaluates_literal rfl
  have hleast : Evaluates env (.literal expRange.1) (.scalar expRange.1) :=
    evaluates_literal isFinite_expRange.1
  have hmost : Evaluates env (.literal expRange.2) (.scalar expRange.2) :=
    evaluates_literal isFinite_expRange.2
  have hexp := evaluates_call₁ .exp h rfl
  have hshifted := evaluates_infixed .sub hexp hleast rfl
  have hscaled := evaluates_infixed .mul htwo hshifted rfl
  have hspan := evaluates_infixed .sub hmost hleast rfl
  exact evaluates_infixed .sub (evaluates_infixed .div hscaled hspan rfl) evaluates_one rfl

theorem larger_zero (n : Float32) : larger n 0 = if 0 < n then n else 0 := by
  have hnan : (0 : Float32).isNaN = false := rfl
  rw [larger, hnan, Bool.or_false]
  simp only [decide_eq_true_eq]

theorem evaluates_sqrtTerm {color : Color} (h : Evaluates env a (.vector color)) :
    Evaluates env (sqrtTerm a) (.vector (color.map scaledSqrt)) := by
  have htwo : Evaluates env (.literal 2) (.scalar 2) := evaluates_literal rfl
  have hzero : Evaluates env (splat (.literal 0)) (.vector (.gray 0)) := evaluates_gray rfl
  have hmax := evaluates_call₂ .max (evaluates_place h) hzero rfl
  have hroot := evaluates_call₁ .sqrt hmax rfl
  have hchannel (n : Float32) : (larger ((n + 1) * 0.5) 0).sqrt * 2 - 1 = scaledSqrt n := by
    rw [larger_zero]
    rfl
  refine evaluates_infixed .sub (evaluates_infixed .mul hroot htwo rfl) evaluates_one ?_
  show some (Value.vector (color.map fun n => (larger ((n + 1) * 0.5) 0).sqrt * 2 - 1)) = _
  simp only [hchannel]

/-- Where the divisor is zero the dividend is taken, and the quotient by one is not. -/
theorem guarded_remainder (m n : Float32) :
    (if (n == 0) = true then m else remainder m (if (n == 0) = true then 1 else n)) =
      safeMod m n := by
  unfold safeMod
  split
  · rfl
  · rfl

theorem evaluates_modTerm (ha : Evaluates env a (.vector p))
    (hb : Evaluates env b (.vector q)) :
    Evaluates env (modTerm a b) (.vector (Color.map₂ safeMod p q)) := by
  have hzero : Evaluates env (splat (.literal 0)) (.vector (.gray 0)) := evaluates_gray rfl
  have hone : Evaluates env (splat (.literal 1)) (.vector (.gray 1)) := evaluates_gray rfl
  have hmask := evaluates_infixed .equal hb hzero rfl
  have hdivisor := evaluates_call₃ .select hb hone hmask rfl
  have hremainder := evaluates_infixed .rem ha hdivisor rfl
  refine evaluates_call₃ .select hremainder ha hmask ?_
  simp only [Color.map₂, ← guarded_remainder]
  rfl

/-- The weighted mean of two numbers, with the factors of its products the other way round. -/
theorem weighted_eq_blend (l m n : Float32) : weighted m n ((l + 1) * 0.5) = blend l m n := by
  rw [weighted, blend, mul_comm m, mul_comm n]

theorem evaluates_mix (ha : Evaluates env a (.vector p))
    (hb : Evaluates env b (.vector q)) (hc : Evaluates env c (.vector r)) :
    Evaluates env (.call₃ .mix b c (place a)) (.vector (Color.map₃ blend p q r)) := by
  refine evaluates_call₃ .mix hb hc (evaluates_place ha) ?_
  simp only [Color.map₃, ← weighted_eq_blend]
  rfl

theorem evaluates_level (ha : Evaluates env a (.vector p))
    (hb : Evaluates env b (.vector q)) (hc : Evaluates env c (.vector r))
    {threshold : Float32} (h : threshold.isFinite = true) :
    Evaluates env (.call₃ .select c b (.infixed .less a (splat (.literal threshold))))
      (.vector (Color.map₃ (fun l m n => if l < threshold then m else n) p q r)) := by
  have hmask := evaluates_infixed .less ha (evaluates_gray h) rfl
  refine evaluates_call₃ .select hc hb hmask ?_
  simp only [Function.apply, Value.select, decide_eq_true_eq]
  rfl

/-! ### The terms of nodes -/

/-- Names stand for the point, for the variables and for the colors of some nodes. -/
structure Provides (env : Environment) (point : Point) (feed : Feed) (ts : List Tree) : Prop where
  point_eq : env pointName = some (.vector ⟨point.x, point.y, point.t⟩)
  feed_eq : env paramsName = some (.inputs (feedRows feed))
  color_eq : ∀ t ∈ ts, env (nodeName t.id) = some (.vector (t.eval point feed))

variable {point : Point} {feed : Feed}

theorem evaluates_terminal {ts : List Tree} {op : Terminal} (h : Provides env point feed ts)
    (hfinite : ∀ n ∈ op.parameters, n.isFinite = true) :
    Evaluates env (nodeTerm op.kind op.parameters [])
      (.vector (combineRaw point feed op.kind op.parameters [])) := by
  cases op with
  | x => exact evaluates_splat (evaluates_point h.point_eq .x)
  | y => exact evaluates_splat (evaluates_point h.point_eq .y)
  | t => exact evaluates_splat (evaluates_point h.point_eq .z)
  | bw value =>
    simp only [Terminal.parameters, List.forall_mem_singleton] at hfinite
    exact evaluates_gray hfinite
  | rgb red green blue =>
    simp only [Terminal.parameters, List.forall_mem_cons] at hfinite
    obtain ⟨hred, hgreen, hblue, -⟩ := hfinite
    exact evaluates_call₃ .vec3 (evaluates_literal hred) (evaluates_literal hgreen)
      (evaluates_literal hblue) rfl
  | var k => exact evaluates_splat (evaluates_feed h.feed_eq k)

theorem evaluates_unary {op : Unary} {t : Tree} (h : Provides env point feed [t])
    (hfinite : ∀ n ∈ op.parameters, n.isFinite = true) :
    Evaluates env (nodeTerm op.kind op.parameters [t.id])
      (.vector (combineRaw point feed op.kind op.parameters [t.eval point feed])) := by
  have ht := List.forall_mem_singleton.mp h.color_eq
  cases op with
  | sin frequency phase | cos frequency phase | tan frequency phase =>
    simp only [Unary.parameters, List.forall_mem_cons] at hfinite
    exact evaluates_wave (fun _ => rfl) ht hfinite.1 hfinite.2.1
  | exp => exact evaluates_expTerm (evaluates_node ht)
  | sqrt => exact evaluates_sqrtTerm (evaluates_node ht)

theorem evaluates_binary {op : Binary} {t t' : Tree} (h : Provides env point feed [t, t']) :
    Evaluates env (nodeTerm op.kind op.parameters [t.id, t'.id])
      (.vector (combineRaw point feed op.kind op.parameters
        [t.eval point feed, t'.eval point feed])) := by
  have hcolors := h.color_eq
  simp only [List.forall_mem_cons] at hcolors
  have ht := evaluates_node hcolors.1
  have ht' := evaluates_node hcolors.2.1
  cases op with
  | sum =>
    exact evaluates_infixed .mul (evaluates_infixed .add ht ht' rfl)
      (evaluates_literal isFinite_half) rfl
  | mult => exact evaluates_infixed .mul ht ht' rfl
  | mod => exact evaluates_modTerm ht ht'

theorem evaluates_ternary {op : Ternary} {t t' t'' : Tree}
    (h : Provides env point feed [t, t', t'']) (hfinite : ∀ n ∈ op.parameters, n.isFinite = true) :
    Evaluates env (nodeTerm op.kind op.parameters [t.id, t'.id, t''.id])
      (.vector (combineRaw point feed op.kind op.parameters
        [t.eval point feed, t'.eval point feed, t''.eval point feed])) := by
  have hcolors := h.color_eq
  simp only [List.forall_mem_cons] at hcolors
  obtain ⟨ht, ht', ht'', -⟩ := hcolors
  cases op with
  | mix => exact evaluates_mix (evaluates_node ht) (evaluates_node ht') (evaluates_node ht'')
  | level threshold =>
    simp only [Ternary.parameters, List.forall_mem_singleton] at hfinite
    exact evaluates_level (evaluates_node ht) (evaluates_node ht') (evaluates_node ht'') hfinite
  | triple =>
    exact evaluates_call₃ .vec3 (evaluates_channel ht .x) (evaluates_channel ht' .y)
      (evaluates_channel ht'' .z) rfl

/-- **The term of a node has the value that its kind computes from the colors of the
children.** -/
theorem evaluates_nodeTerm {t : Tree} (h : Provides env point feed t.children)
    (hfinite : ∀ n ∈ t.parameters, n.isFinite = true) :
    Evaluates env (nodeTerm t.kind t.parameters (t.children.map Tree.id)) (.vector
      (combineRaw point feed t.kind t.parameters (t.children.map fun c => c.eval point feed))) := by
  cases t with
  | terminal id op => exact evaluates_terminal h hfinite
  | unary id op a => exact evaluates_unary h hfinite
  | binary id op a b => exact evaluates_binary h
  | ternary id op a b c => exact evaluates_ternary h hfinite

theorem eval_eq_combine (t : Tree) : t.eval point feed = combine point feed t.kind t.parameters
    (t.children.map fun c => c.eval point feed) := Tree.fold_eq _ t

/-- **The statement of a node has the color of the node as its value.** -/
theorem evaluates_nodeStatement {t : Tree} (h : Provides env point feed t.children)
    (hfinite : ∀ n ∈ t.parameters, n.isFinite = true) :
    Evaluates env (nodeStatement t.id t.kind t.parameters (t.children.map Tree.id)).value
      (.vector (t.eval point feed)) := by
  have hmost : Evaluates env (splat (.literal 1)) (.vector (.gray 1)) := evaluates_gray rfl
  have hleast : Evaluates env (splat (.negate (.literal 1))) (.vector (.gray (-1))) :=
    evaluates_splat (evaluates_negate evaluates_one rfl)
  rw [eval_eq_combine]
  exact evaluates_call₃ .clamp (evaluates_nodeTerm h hfinite) hleast hmost rfl

end GrammarArt.Shader
