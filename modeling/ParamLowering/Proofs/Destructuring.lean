import ParamLowering.Proofs.Emission
set_option autoImplicit false

/-!
Extraction keeps the meaning of destructuring.

The meaning of expression texts is a parameter: values, what evaluation reads and changes, and
how a property is read. Against any such meaning the program of an extraction, run in order,
comes to the same values, by the same evaluations in the same order, as taking the pattern apart
by keys and indices.
-/

namespace ParamLowering

/-- The text of a range of the source. -/
def Span.textIn (range : Span) (source : List Char) : String :=
  String.ofList ((range.text? source).getD [])

def SourceExpr.text : SourceExpr → String
  | .reference text | .compound text => text

/-! ### The texts and names of a pattern -/

/-- The access to a property by its key. -/
def PropertyKey.accessor (source : List Char) : PropertyKey → Accessor
  | .ident name | .str name => .property name
  | .num text => .computed text
  | .computed range => .computed (range.textIn source)

/-- The expressions in a key; a number is the expression that its digits are. -/
def PropertyKey.texts (source : List Char) : PropertyKey → List String
  | .ident _ | .str _ => []
  | .num text => [text]
  | .computed range => [range.textIn source]

mutual
/-- The names that a pattern binds, in order. -/
def Pattern.leaves : Pattern → List String
  | .ident name _ => [name]
  | .object _ props => Pattern.propertyLeaves props
  | .array _ elements none => Pattern.elementLeaves elements
  | .array _ elements (some rest) => Pattern.elementLeaves elements ++ rest.leaves

def Pattern.propertyLeaves : List PatternProperty → List String
  | [] => []
  | .mk _ value _ :: props => value.leaves ++ Pattern.propertyLeaves props

def Pattern.elementLeaves : List PatternElement → List String
  | [] => []
  | .hole :: elements => Pattern.elementLeaves elements
  | .item value _ :: elements => value.leaves ++ Pattern.elementLeaves elements
end

mutual
/-- The expressions of a pattern, in order: keys and defaults. -/
def Pattern.texts (source : List Char) : Pattern → List String
  | .ident .. => []
  | .object _ props => Pattern.propertyTexts source props
  | .array _ elements none => Pattern.elementTexts source elements
  | .array _ elements (some rest) => Pattern.elementTexts source elements ++ rest.texts source

def Pattern.propertyTexts (source : List Char) : List PatternProperty → List String
  | [] => []
  | .mk key value default :: props =>
    key.texts source ++ default.toList.map (·.textIn source) ++ value.texts source ++
      Pattern.propertyTexts source props

def Pattern.elementTexts (source : List Char) : List PatternElement → List String
  | [] => []
  | .hole :: elements => Pattern.elementTexts source elements
  | .item value default :: elements =>
    default.toList.map (·.textIn source) ++ value.texts source ++
      Pattern.elementTexts source elements
end

/-! ### Meaning -/

/-- What a property is read by. -/
inductive Key (V : Type) where
  | name (text : String)
  | index (i : Nat)
  | value (v : V)

/-- Variables, and whatever else evaluation reads, changes or leaves a trace in. -/
structure Store (V W : Type) where
  env : String → V
  world : W

def Store.set {V W : Type} (m : Store V W) (name : String) (v : V) : Store V W :=
  { m with env := fun n => if n = name then v else m.env n }

/-- A meaning of expression texts. A text is evaluated in an environment, of which it sees the
names in it and nothing else. -/
structure Meaning (V W : Type) where
  eval : String → (String → V) → W → V × W
  names : String → List String
  eval_congr : ∀ text env env', (∀ n ∈ names text, env n = env' n) → eval text env = eval text env'
  isUndefined : V → Bool
  null : V
  /-- The read of a property. -/
  get : V → Key V → W → V × W
  /-- The elements of an array from a place on. -/
  tail : V → Nat → W → V × W

namespace Meaning

variable {V W : Type} (E : Meaning V W)

/-- The text is a variable. -/
def IsVariable (text : String) : Prop := ∀ env w, E.eval text env w = (env text, w)

/-- Evaluation of the text has no effect and depends on variables only. -/
def IsPure (text : String) : Prop := ∀ env w w', E.eval text env w = ((E.eval text env w').1, w)

def evalKey (text : String) (env : String → V) (w : W) : Key V × W :=
  (.value (E.eval text env w).1, (E.eval text env w).2)

def read (v : V) (k : Key V × W) : V × W := E.get v k.1 k.2

def key (accessor : Accessor) (env : String → V) (w : W) : Key V × W :=
  match accessor with
  | .property name => (.name name, w)
  | .index i => (.index i, w)
  | .computed expr => E.evalKey expr env w

/-- The value of an initializer. -/
def init (i : Initializer) (m : Store V W) : V × W :=
  match i with
  | .whole text => E.eval text m.env m.world
  | .read base accessor =>
    let r := E.eval base m.env m.world
    E.read r.1 (E.key accessor m.env r.2)
  | .guarded temporary default =>
    let r := E.eval temporary m.env m.world
    if E.isUndefined r.1 then E.eval default m.env r.2 else E.eval temporary m.env r.2
  | .tail base count =>
    let r := E.eval base m.env m.world
    E.tail r.1 count r.2

def assign (m : Store V W) (a : String × Initializer) : Store V W :=
  Store.set ⟨m.env, (E.init a.2 m).2⟩ a.1 (E.init a.2 m).1

/-- Runs a program: the assignments in order, then the names that are set to `null`. -/
def run (p : Program) (m : Store V W) : Store V W :=
  p.cleared.foldl (·.set · E.null) (p.assignments.foldl E.assign m)

variable (source : List Char)

def propertyKey (k : PropertyKey) (env : String → V) (w : W) : Key V × W :=
  match k with
  | .ident name | .str name => (.name name, w)
  | .num text => E.evalKey text env w
  | .computed range => E.evalKey (range.textIn source) env w

/-- A value, or the default where it is undefined. -/
def orDefault (default : Option Span) (env : String → V) (r : V × W) : V × W :=
  match default with
  | none => r
  | some range => if E.isUndefined r.1 then E.eval (range.textIn source) env r.2 else r

mutual
/-- Takes a value apart by a pattern: by key, by index, and with what remains of an array. -/
def destructure : Pattern → V → Store V W → Store V W
  | .ident name _, v, m => m.set name v
  | .object _ props, v, m => destructureProperties props v m
  | .array _ elements none, v, m => destructureElements 0 elements v m
  | .array _ elements (some rest), v, m =>
    let m := destructureElements 0 elements v m
    let r := E.tail v elements.length m.world
    destructure rest r.1 ⟨m.env, r.2⟩

def destructureProperties : List PatternProperty → V → Store V W → Store V W
  | [], _, m => m
  | .mk k value default :: props, v, m =>
    let r := E.orDefault source default m.env
      (E.read v (E.propertyKey source k m.env m.world))
    destructureProperties props v (destructure value r.1 ⟨m.env, r.2⟩)

def destructureElements (index : Nat) : List PatternElement → V → Store V W → Store V W
  | [], _, m => m
  | .hole :: elements, v, m => destructureElements (index + 1) elements v m
  | .item value default :: elements, v, m =>
    let r := E.orDefault source default m.env (E.get v (.index index) m.world)
    destructureElements (index + 1) elements v (destructure value r.1 ⟨m.env, r.2⟩)
end

/-- Evaluates a source expression once and takes its value apart. -/
def destructureSource (pattern : Pattern) (expr : SourceExpr) (m : Store V W) : Store V W :=
  let r := E.eval expr.text m.env m.world
  E.destructure source pattern r.1 ⟨m.env, r.2⟩

theorem key_accessor (k : PropertyKey) : E.key (k.accessor source) = E.propertyKey source k := by
  cases k <;> rfl

/-! ### Stores that agree -/

def exec (bs : List Binding) (m : Store V W) : Store V W :=
  (bs.map fun b => (b.name, b.init)).foldl E.assign m

theorem exec_append (xs ys : List Binding) (m : Store V W) :
    E.exec (xs ++ ys) m = E.exec ys (E.exec xs m) := by
  simp [exec]

theorem exec_singleton (b : Binding) (m : Store V W) :
    E.exec [b] m = Store.set ⟨m.env, (E.init b.init m).2⟩ b.name (E.init b.init m).1 := rfl

theorem exec_env_of_notMem {bs : List Binding} {n : String} (h : ∀ b ∈ bs, b.name ≠ n)
    (m : Store V W) : (E.exec bs m).env n = m.env n := by
  induction bs generalizing m with
  | nil => rfl
  | cons b bs ih =>
    obtain ⟨hb, hbs⟩ := List.forall_mem_cons.1 h
    have hset : (E.exec [b] m).env n = m.env n := by
      simp [exec_singleton, Store.set, Ne.symm hb]
    rw [← List.singleton_append, exec_append, ih hbs, hset]

section Simulation

variable (taken leaves : List String)

/-- Equal but for names that were free at the start. -/
def Agree (m r : Store V W) : Prop := m.world = r.world ∧ ∀ n ∈ taken, m.env n = r.env n

/-- The text has this value, and keeps it while leaves and names not yet known are filled. -/
def Denotes (base : String) (v : V) (known : List String) (env : String → V) : Prop :=
  ∀ env', (∀ n ∈ known, n ∉ leaves → env' n = env n) → ∀ w, E.eval base env' w = (v, w)

/-- An initializer that reads `base` gives what `f` makes of the value of `base`. -/
def Computes (base : String) (i : Initializer) (f : V → Store V W → V × W) : Prop :=
  ∀ v known m r, E.Denotes leaves base v known m.env → Agree taken m r → E.init i m = f v r

/-- The bindings of a step do to a store what `f` does with the value of `base`. -/
def Simulates (base : String) (step : Extracting Unit) (f : V → Store V W → Store V W) : Prop :=
  ∀ s t, s.out.Simple → taken ⊆ s.names.taken → Succeeds step s () t →
    ∃ bs, Emission leaves s t bs ∧ ∀ v m r, E.Denotes leaves base v s.names.taken m.env →
      Agree taken m r → Agree taken (E.exec bs m) (f v r)

variable {E taken leaves} {base stem : String}

theorem Agree.withWorld {m r : Store V W} (h : Agree taken m r) (w : W) :
    Agree taken (⟨m.env, w⟩ : Store V W) ⟨r.env, w⟩ := ⟨rfl, h.2⟩

theorem Agree.set {m r : Store V W} (h : Agree taken m r) (name : String) (v : V) :
    Agree taken (m.set name v) (r.set name v) := by
  refine ⟨h.1, fun n hn => ?_⟩
  simp only [Store.set]
  split
  · rfl
  · exact h.2 n hn

theorem Agree.set_left {m r : Store V W} (h : Agree taken m r) {name : String}
    (hname : name ∉ taken) (v : V) : Agree taken (m.set name v) r := by
  refine ⟨h.1, fun n hn => ?_⟩
  have hne : n ≠ name := fun heq => hname (heq ▸ hn)
  simp only [Store.set, if_neg hne]
  exact h.2 n hn

theorem eval_agree {m r : Store V W} (h : Agree taken m r) {text : String}
    (htext : ∀ n ∈ E.names text, n ∈ taken) : E.eval text m.env = E.eval text r.env :=
  E.eval_congr text m.env r.env fun n hn => h.2 n (htext n hn)

/-- What a step emits leaves the names known before it alone, the leaves apart. -/
theorem exec_frame {s t : ExtractionState} {bs : List Binding} (h : Emission leaves s t bs)
    (m : Store V W) {n : String} (hn : n ∈ s.names.taken) (hleaf : n ∉ leaves) :
    (E.exec bs m).env n = m.env n := by
  refine E.exec_env_of_notMem (fun b hb => ?_) m
  rintro rfl
  rcases h.named b hb with hb | hb
  · exact hleaf hb.2
  · exact hb.2.1 hn

theorem Denotes.after {v : V} {s t : ExtractionState} {bs : List Binding} {m : Store V W}
    (h : E.Denotes leaves base v s.names.taken m.env) (hbs : Emission leaves s t bs) :
    E.Denotes leaves base v t.names.taken (E.exec bs m).env := by
  intro env' henv' w
  refine h env' (fun n hn hleaf => ?_) w
  rw [henv' n (hbs.grows hn) hleaf, exec_frame hbs m hn hleaf]

theorem Denotes.variable {name : String} (h : E.IsVariable name) {known : List String}
    (hknown : name ∈ known) (hleaf : name ∉ leaves) (env : String → V) :
    E.Denotes leaves name (env name) known env := by
  intro env' henv' w
  rw [h env' w, henv' name hknown hleaf]

/-! ### Steps -/

theorem Simulates.pure : E.Simulates taken leaves base (Pure.pure ()) fun _ r => r := by
  intro s t hsimple _ hrun
  obtain ⟨-, rfl⟩ := Succeeds.pure_iff.1 hrun
  exact ⟨[], .nil hsimple, fun _ _ _ _ h => h⟩

theorem Simulates.seq {first second : Extracting Unit} {f g : V → Store V W → Store V W}
    (hf : E.Simulates taken leaves base first f) (hg : E.Simulates taken leaves base second g) :
    E.Simulates taken leaves base (first >>= fun _ => second) fun v r => g v (f v r) := by
  intro s u hsimple htaken hrun
  obtain ⟨_, t, hfirst, hsecond⟩ := Succeeds.bind_iff.1 hrun
  obtain ⟨xs, hxs, hfx⟩ := hf s t hsimple htaken hfirst
  obtain ⟨ys, hys, hgy⟩ := hg t u hxs.simple (List.Subset.trans htaken hxs.grows) hsecond
  refine ⟨xs ++ ys, hxs.append hys, fun v m r hv hmr => ?_⟩
  rw [exec_append]
  exact hgy v _ _ (hv.after hxs) (hfx v m r hv hmr)

theorem exec_leaf {i : Initializer} {f : V → Store V W → V × W}
    (hi : E.Computes taken leaves base i f) {b : Binding} (hb : b.init = i) {v : V}
    {known : List String} {m r : Store V W} (hv : E.Denotes leaves base v known m.env)
    (hmr : Agree taken m r) :
    Agree taken (E.exec [b] m) (Store.set ⟨r.env, (f v r).2⟩ b.name (f v r).1) := by
  rw [exec_singleton, hb, hi v known m r hv hmr]
  exact (hmr.withWorld _).set b.name _

theorem Simulates.leaf {name : String} {i : Initializer} {f : V → Store V W → V × W}
    (hname : name ∈ leaves) (hi : E.Computes taken leaves base i f) :
    E.Simulates taken leaves base (Extracting.bind { name, init := i })
      fun v r => Store.set ⟨r.env, (f v r).2⟩ name (f v r).1 := by
  intro s t hsimple _ hrun
  exact ⟨_, Extracting.bind_emission hsimple ⟨rfl, hname⟩ hrun,
    fun v m r hv hmr => exec_leaf hi rfl hv hmr⟩

theorem Simulates.waiting {name : String} {span : Span} {accessor : Accessor}
    {f : V → Store V W → V × W} (hname : name ∈ leaves)
    (hi : E.Computes taken leaves base (.read base accessor) f) :
    E.Simulates taken leaves base (Extracting.defer ⟨.ident name span, base, accessor⟩)
      fun v r => Store.set ⟨r.env, (f v r).2⟩ name (f v r).1 := by
  intro s t hsimple _ hrun
  exact ⟨_, Extracting.defer_emission hsimple hname hrun,
    fun v m r hv hmr => exec_leaf hi rfl hv hmr⟩

/-- A temporary takes a value that what follows goes on from. -/
theorem Simulates.temporary {i : Initializer} {f : V → Store V W → V × W}
    {next : String → Extracting Unit} {g : V → Store V W → Store V W}
    (hleaves : leaves ⊆ taken) (hstem : ∀ k, E.IsVariable (NameSet.numbered stem k))
    (hi : E.Computes taken leaves base i f)
    (hnext : ∀ t, E.IsVariable t → E.Simulates taken leaves t (next t) g) :
    E.Simulates taken leaves base (Extracting.temporary stem i >>= next)
      fun v r => g (f v r).1 ⟨r.env, (f v r).2⟩ := by
  intro s u hsimple htaken hrun
  obtain ⟨name, t, htemp, hrest⟩ := Succeeds.bind_iff.1 hrun
  obtain ⟨⟨k, rfl⟩, hfree, hmem, hone⟩ :=
    Extracting.temporary_emission leaves hsimple htemp
  have htaken' := List.Subset.trans htaken hone.grows
  obtain ⟨bs, hbs, hg⟩ := hnext _ (hstem k) t u hone.simple htaken' hrest
  refine ⟨_, hone.append hbs, fun v m r hv hmr => ?_⟩
  have hnew : NameSet.numbered stem k ∉ taken := fun h => hfree (htaken h)
  have hleaf : NameSet.numbered stem k ∉ leaves := fun h => hnew (hleaves h)
  rw [exec_append, exec_singleton, hi v _ m r hv hmr]
  have hvar := Denotes.variable (hstem k) hmem hleaf
    (Store.set ⟨m.env, (f v r).2⟩ (NameSet.numbered stem k) (f v r).1).env
  rw [show (Store.set ⟨m.env, (f v r).2⟩ (NameSet.numbered stem k) (f v r).1).env
    (NameSet.numbered stem k) = (f v r).1 by simp [Store.set]] at hvar
  exact hg _ _ _ hvar ((hmr.withWorld _).set_left hnew _)

/-- A step that only looks something up changes nothing. -/
theorem Simulates.lookup {α : Type} {step : Extracting α} {P : α → Prop}
    {next : α → Extracting Unit} {f : V → Store V W → Store V W}
    (hstep : ∀ s a t, Succeeds step s a t → s = t ∧ P a)
    (hnext : ∀ a, P a → E.Simulates taken leaves base (next a) f) :
    E.Simulates taken leaves base (step >>= next) f := by
  intro s u hsimple htaken hrun
  obtain ⟨a, t, ha, hrest⟩ := Succeeds.bind_iff.1 hrun
  obtain ⟨rfl, hP⟩ := hstep s a t ha
  exact hnext a hP s u hsimple htaken hrest

theorem computes_whole : E.Computes taken leaves base (.whole base) fun v r => (v, r.world) := by
  intro v known m r hv hmr
  simp only [init]
  rw [hv m.env (fun _ _ _ => rfl), hmr.1]

theorem computes_read {accessor : Accessor} {κ : Store V W → Key V × W}
    (hκ : ∀ m r, Agree taken m r → E.key accessor m.env m.world = κ r) :
    E.Computes taken leaves base (.read base accessor) fun v r => E.read v (κ r) := by
  intro v known m r hv hmr
  simp only [init]
  rw [hv m.env (fun _ _ _ => rfl), hκ m r hmr]

theorem computes_tail (count : Nat) :
    E.Computes taken leaves base (.tail base count) fun v r => E.tail v count r.world := by
  intro v known m r hv hmr
  simp only [init]
  rw [hv m.env (fun _ _ _ => rfl), hmr.1]

theorem computes_guarded {source : List Char} {range : Span}
    (htext : ∀ n ∈ E.names (range.textIn source), n ∈ taken) :
    E.Computes taken leaves base (.guarded base (range.textIn source))
      fun v r => E.orDefault source (some range) r.env (v, r.world) := by
  intro v known m r hv hmr
  have hbase := hv m.env (fun _ _ _ => rfl)
  simp only [init, orDefault, hbase, eval_agree hmr htext, hmr.1]

theorem slice_succeeds {cx : ExtractionContext} {range : Span} {s t : ExtractionState}
    {text : String} (h : Succeeds (cx.slice range) s text t) :
    s = t ∧ text = range.textIn cx.source := by
  rw [ExtractionContext.slice, Span.textOrError] at h
  cases htext : range.text? cx.source with
  | none =>
    rw [htext] at h
    exact (Succeeds.throw_iff.1 h).elim
  | some cs =>
    rw [htext] at h
    obtain ⟨rfl, rfl⟩ := Succeeds.pure_iff.1 h
    exact ⟨rfl, by rw [Span.textIn, htext]; rfl⟩

theorem accessorOf_succeeds {cx : ExtractionContext} {k : PropertyKey} {s t : ExtractionState}
    {accessor : Accessor} (h : Succeeds (cx.accessorOf k) s accessor t) :
    s = t ∧ accessor = k.accessor cx.source := by
  cases k with
  | ident name =>
    obtain ⟨rfl, rfl⟩ := Succeeds.pure_iff.1 h
    exact ⟨rfl, rfl⟩
  | str name =>
    obtain ⟨rfl, rfl⟩ := Succeeds.pure_iff.1 h
    exact ⟨rfl, rfl⟩
  | num text =>
    obtain ⟨rfl, rfl⟩ := Succeeds.pure_iff.1 h
    exact ⟨rfl, rfl⟩
  | computed range =>
    obtain ⟨text, u, hslice, hpure⟩ := Succeeds.bind_iff.1 h
    obtain ⟨rfl, rfl⟩ := slice_succeeds hslice
    obtain ⟨rfl, rfl⟩ := Succeeds.pure_iff.1 hpure
    exact ⟨rfl, rfl⟩

/-! ### Patterns -/

section Patterns

variable {cx : ExtractionContext} (hleaves : leaves ⊆ taken)
  (hstem : ∀ k, E.IsVariable (NameSet.numbered cx.stem k))

include hleaves hstem in
theorem Simulates.guarded {inside : String → Extracting Unit} {g : V → Store V W → Store V W}
    (default : Option Span)
    (hdefault : ∀ range ∈ default, ∀ n ∈ E.names (range.textIn cx.source), n ∈ taken)
    (hinside : ∀ t, E.IsVariable t → E.Simulates taken leaves t (inside t) g) (t : String)
    (ht : E.IsVariable t) :
    E.Simulates taken leaves t (cx.guarded t default >>= inside) fun v r =>
      g (E.orDefault cx.source default r.env (v, r.world)).1
        ⟨r.env, (E.orDefault cx.source default r.env (v, r.world)).2⟩ := by
  cases default with
  | none =>
    rw [ExtractionContext.guarded, pure_bind]
    exact hinside t ht
  | some range =>
    rw [ExtractionContext.guarded, bind_assoc]
    refine .lookup (fun _ _ _ => slice_succeeds) ?_
    rintro text rfl
    exact .temporary hleaves hstem (computes_guarded (hdefault range rfl)) hinside

include hleaves hstem in
/-- One element: a leaf, a leaf with a default, or a pattern of its own. -/
theorem Simulates.element (base : String) (top : Bool) {accessor : Accessor}
    {κ : Store V W → Key V × W} {value : Pattern} {default : Option Span}
    {inside : String → Extracting Unit}
    (hκ : ∀ m r, Agree taken m r → E.key accessor m.env m.world = κ r)
    (hvalue : value.leaves ⊆ leaves)
    (hdefault : ∀ range ∈ default, ∀ n ∈ E.names (range.textIn cx.source), n ∈ taken)
    (hinside : ∀ t, E.IsVariable t →
      E.Simulates taken leaves t (inside t) (E.destructure cx.source value)) :
    E.Simulates taken leaves base (cx.element base top accessor value default inside) fun v r =>
      E.destructure cx.source value (E.orDefault cx.source default r.env (E.read v (κ r))).1
        ⟨r.env, (E.orDefault cx.source default r.env (E.read v (κ r))).2⟩ := by
  have hread : E.Computes taken leaves base (.read base accessor) fun v r => E.read v (κ r) :=
    computes_read hκ
  have hpattern := Simulates.guarded hleaves hstem default hdefault hinside
  cases value with
  | ident name span =>
    have hname : name ∈ leaves := hvalue (by simp [Pattern.leaves])
    cases default with
    | none =>
      cases top with
      | true => exact .leaf hname hread
      | false => exact .waiting hname hread
    | some range =>
      refine .lookup (fun _ _ _ => slice_succeeds) ?_
      rintro text rfl
      have h := Simulates.temporary hleaves hstem hread fun _ _ =>
        .leaf hname (computes_guarded (hdefault range rfl))
      exact h
  | object span props =>
    have h := Simulates.temporary hleaves hstem hread hpattern
    exact h
  | array span elements rest =>
    have h := Simulates.temporary hleaves hstem hread hpattern
    exact h

include hleaves hstem in
theorem Simulates.remainder (base : String) (count : Nat) {value : Pattern}
    {inside : String → Extracting Unit}
    (hvalue : value.leaves ⊆ leaves)
    (hinside : ∀ t, E.IsVariable t →
      E.Simulates taken leaves t (inside t) (E.destructure cx.source value)) :
    E.Simulates taken leaves base (cx.remainder base count value inside) fun v r =>
      E.destructure cx.source value (E.tail v count r.world).1
        ⟨r.env, (E.tail v count r.world).2⟩ := by
  have htail : E.Computes taken leaves base (.tail base count)
      fun v r => E.tail v count r.world := computes_tail count
  cases value with
  | ident name span => exact .leaf (hvalue (by simp [Pattern.leaves])) htail
  | object span props => exact .temporary hleaves hstem htail hinside
  | array span elements rest => exact .temporary hleaves hstem htail hinside

/-- The names in a text are taken. -/
abbrev NamesTaken (E : Meaning V W) (taken : List String) (text : String) : Prop :=
  ∀ n ∈ E.names text, n ∈ taken

theorem namesTaken_default {default : Option Span} {source : List Char}
    (h : ∀ text ∈ default.toList.map (·.textIn source), E.NamesTaken taken text) :
    ∀ range ∈ default, E.NamesTaken taken (range.textIn source) := by
  rintro range hrange
  exact h _ (List.mem_map_of_mem (Option.mem_toList.2 hrange))

theorem key_agree {k : PropertyKey} {source : List Char}
    (hkey : ∀ text ∈ k.texts source, E.NamesTaken taken text) (m r : Store V W)
    (hmr : Agree taken m r) :
    E.key (k.accessor source) m.env m.world = E.propertyKey source k r.env r.world := by
  rw [key_accessor]
  cases k with
  | ident name => simp only [propertyKey, hmr.1]
  | str name => simp only [propertyKey, hmr.1]
  | num text =>
    have htext := eval_agree hmr (hkey text (by simp [PropertyKey.texts]))
    simp only [propertyKey, evalKey, hmr.1, htext]
  | computed range =>
    have htext := hkey (range.textIn source) (by simp [PropertyKey.texts])
    simp only [propertyKey, evalKey, hmr.1, eval_agree hmr htext]

include hleaves hstem

mutual
/-- The parts of a pattern fill its leaves as destructuring does. The cases are those of the
extraction; each element goes on into its own pattern from a variable. -/
theorem parts_simulates (base : String) (top : Bool) : ∀ p : Pattern, p.leaves ⊆ leaves →
    (∀ text ∈ p.texts cx.source, E.NamesTaken taken text) →
    E.Simulates taken leaves base (cx.parts base top p) (E.destructure cx.source p)
  | .ident name _, hp, _ => .leaf (hp (by simp [Pattern.leaves])) computes_whole
  | .object _ props, hp, ht => properties_simulates base top props hp ht
  | .array _ elements none, hp, ht => items_simulates base top 0 elements hp ht
  | .array _ elements (some rest), hp, ht => by
    obtain ⟨hpe, hpr⟩ := List.append_subset.1 hp
    obtain ⟨hte, htr⟩ := List.forall_mem_append.1 ht
    have hrest := Simulates.remainder hleaves hstem base elements.length hpr
      fun t _ => parts_simulates t false rest hpr htr
    have h := Simulates.seq (items_simulates base top 0 elements hpe hte) hrest
    exact h

theorem properties_simulates (base : String) (top : Bool) : ∀ props : List PatternProperty,
    Pattern.propertyLeaves props ⊆ leaves →
    (∀ text ∈ Pattern.propertyTexts cx.source props, E.NamesTaken taken text) →
    E.Simulates taken leaves base (cx.properties base top props)
      (E.destructureProperties cx.source props)
  | [], _, _ => .pure
  | .mk key value default :: props, hp, ht => by
    obtain ⟨hpv, hpp⟩ := List.append_subset.1 hp
    obtain ⟨htv, htp⟩ := List.forall_mem_append.1 ht
    obtain ⟨htd, htv⟩ := List.forall_mem_append.1 htv
    obtain ⟨htk, htd⟩ := List.forall_mem_append.1 htd
    refine .lookup (fun _ _ _ => accessorOf_succeeds) ?_
    rintro accessor rfl
    have helement := Simulates.element hleaves hstem base top (key_agree htk)
      hpv (namesTaken_default htd) fun t _ => parts_simulates t false value hpv htv
    have h := Simulates.seq helement (properties_simulates base top props hpp htp)
    exact h

theorem items_simulates (base : String) (top : Bool) : ∀ (index : Nat)
    (elements : List PatternElement), Pattern.elementLeaves elements ⊆ leaves →
    (∀ text ∈ Pattern.elementTexts cx.source elements, E.NamesTaken taken text) →
    E.Simulates taken leaves base (cx.items base top index elements)
      (E.destructureElements cx.source index elements)
  | _, [], _, _ => .pure
  | index, .hole :: elements, hp, ht => items_simulates base top (index + 1) elements hp ht
  | index, .item value default :: elements, hp, ht => by
    obtain ⟨hpv, hpe⟩ := List.append_subset.1 hp
    obtain ⟨htv, hte⟩ := List.forall_mem_append.1 ht
    obtain ⟨htd, htv⟩ := List.forall_mem_append.1 htv
    have hκ : ∀ m r : Store V W, Agree taken m r →
        E.key (.index index) m.env m.world = (.index index, r.world) := fun m r hmr => by
      rw [key, hmr.1]
    have helement := Simulates.element hleaves hstem base top hκ hpv
      (namesTaken_default htd) fun t _ => parts_simulates t false value hpv htv
    have h := Simulates.seq helement (items_simulates base top (index + 1) elements hpe hte)
    exact h
end

omit hleaves hstem in
theorem Denotes.pure {text : String} (hpure : E.IsPure text) {known : List String}
    (hknown : ∀ n ∈ E.names text, n ∈ known ∧ n ∉ leaves) (m : Store V W) :
    E.Denotes leaves text (E.eval text m.env m.world).1 known m.env := by
  intro env' henv' w
  have henv : ∀ n ∈ E.names text, env' n = m.env n := fun n hn =>
    henv' n (hknown n hn).1 (hknown n hn).2
  rw [E.eval_congr text env' m.env henv, hpure m.env w m.world]

end Patterns

omit leaves base stem in
/-- Setting temporaries to `null` is not seen among the names that were taken before. -/
theorem run_agree {p : Program} {m r : Store V W}
    (h : Agree taken (p.assignments.foldl E.assign m) r) (hcleared : ∀ n ∈ p.cleared, n ∉ taken) :
    Agree taken (E.run p m) r := by
  obtain ⟨assignments, cleared⟩ := p
  simp only [run] at h hcleared ⊢
  generalize assignments.foldl E.assign m = m' at h ⊢
  induction cleared generalizing m' with
  | nil => exact h
  | cons n cleared ih =>
    obtain ⟨hn, hcleared⟩ := List.forall_mem_cons.1 hcleared
    exact ih hcleared _ (h.set_left hn E.null)

end Simulation

section Extract

variable {E} {cx : ExtractionContext} {pattern : Pattern} {names : NameSet}

/-- The bindings that an extraction adds to an empty one do what destructuring does. -/
theorem extract_emission {expr : SourceExpr} {t : ExtractionState}
    (hstem : ∀ k, E.IsVariable (NameSet.numbered cx.stem k))
    (hleaves : pattern.leaves ⊆ names.taken)
    (htexts : ∀ text ∈ pattern.texts cx.source, E.NamesTaken names.taken text)
    (hexpr : E.NamesTaken names.taken expr.text)
    (hreference : ∀ text, expr = .reference text →
      E.IsPure text ∧ ∀ n ∈ E.names text, n ∉ pattern.leaves)
    (hrun : Succeeds (cx.extract pattern expr) { names } () t) :
    ∃ bs, Emission pattern.leaves { names } t bs ∧ ∀ m : Store V W,
      Agree names.taken (E.exec bs m) (E.destructureSource cx.source pattern expr m) := by
  have hsimple : Extraction.Simple {} := by simp [Extraction.Simple]
  obtain ⟨base, s, hbase, hparts⟩ := Succeeds.bind_iff.1 hrun
  have hsim := parts_simulates hleaves hstem base true pattern (List.Subset.refl _) htexts
  cases expr with
  | reference text =>
    obtain ⟨rfl, rfl⟩ := Succeeds.pure_iff.1 hbase
    obtain ⟨hpure, hfree⟩ := hreference text rfl
    obtain ⟨bs, hbs, hagree⟩ := hsim _ t hsimple (List.Subset.refl _) hparts
    refine ⟨bs, hbs, fun m => ?_⟩
    have hworld : (E.eval text m.env m.world).2 = m.world := by
      rw [hpure m.env m.world m.world]
    have h := hagree _ m m (.pure hpure (fun n hn => ⟨hexpr n hn, hfree n hn⟩) m)
      ⟨rfl, fun _ _ => rfl⟩
    simpa only [destructureSource, SourceExpr.text, hworld] using h
  | compound text =>
    obtain ⟨⟨k, rfl⟩, hfree, hmem, hone⟩ :=
      Extracting.temporary_emission pattern.leaves hsimple hbase
    obtain ⟨bs, hbs, hagree⟩ := hsim s t hone.simple hone.grows hparts
    refine ⟨_, hone.append hbs, fun m => ?_⟩
    have hleaf : NameSet.numbered cx.stem k ∉ pattern.leaves := fun h => hfree (hleaves h)
    rw [exec_append, exec_singleton]
    have hvar := Denotes.variable (hstem k) hmem hleaf
      (Store.set ⟨m.env, (E.eval text m.env m.world).2⟩ (NameSet.numbered cx.stem k)
        (E.eval text m.env m.world).1).env
    rw [show (Store.set ⟨m.env, (E.eval text m.env m.world).2⟩ (NameSet.numbered cx.stem k)
      (E.eval text m.env m.world).1).env (NameSet.numbered cx.stem k) =
        (E.eval text m.env m.world).1 by simp [Store.set]] at hvar
    exact hagree _ _ _ hvar (Agree.set_left ⟨rfl, fun _ _ => rfl⟩ hfree _)

/-- What an extraction declares is a straight-line program that gives every name of the pattern
the value that destructuring gives it, changes no other name that was taken, and evaluates keys,
defaults, reads and the source expression as destructuring does: equally often and in the same
order, whatever they do to the world. -/
theorem extraction_preserves_destructuring {expr : SourceExpr} {names' : NameSet} {x : Extraction}
    (hrun : cx.extractor.run pattern expr names () = (.ok x, names', ()))
    (hstem : ∀ k, E.IsVariable (NameSet.numbered cx.stem k))
    (hleaves : pattern.leaves ⊆ names.taken)
    (htexts : ∀ text ∈ pattern.texts cx.source, E.NamesTaken names.taken text)
    (hexpr : E.NamesTaken names.taken expr.text)
    (hreference : ∀ text, expr = .reference text →
      E.IsPure text ∧ ∀ n ∈ E.names text, n ∉ pattern.leaves)
    (indent : String) (cleanup : Bool) :
    x.declaration indent cleanup = .ok ((x.program cleanup).render ++ indent) ∧
      ∀ m : Store V W,
        (E.run (x.program cleanup) m).world =
          (E.destructureSource cx.source pattern expr m).world ∧
        (∀ leaf ∈ pattern.leaves, (E.run (x.program cleanup) m).env leaf =
          (E.destructureSource cx.source pattern expr m).env leaf) ∧
        ∀ n ∈ names.taken, (E.run (x.program cleanup) m).env n =
          (E.destructureSource cx.source pattern expr m).env n := by
  obtain ⟨t, hsucceeds, rfl⟩ : ∃ t, Succeeds (cx.extract pattern expr) { names } () t ∧
      x = t.out := by
    simp only [ExtractionContext.extractor] at hrun
    match h : (cx.extract pattern expr).run.run { names }, hrun with
    | (.ok (), t), hrun =>
      refine ⟨t, h, ?_⟩
      simpa using (congrArg Prod.fst hrun).symm
    | (.error e, t), hrun => simp at hrun
  obtain ⟨bs, hbs, hagree⟩ :=
    extract_emission hstem hleaves htexts hexpr hreference hsucceeds
  have hordered : t.out.ordered = bs := by simpa [Extraction.ordered] using hbs.ordered
  refine ⟨Extraction.declaration_eq hbs.simple indent cleanup, fun m => ?_⟩
  have hcleared : ∀ n ∈ (t.out.program cleanup).cleared, n ∉ names.taken := by
    intro n hn
    cases cleanup with
    | false => simp [Extraction.program] at hn
    | true =>
      obtain ⟨b, hb, rfl⟩ := List.mem_map.1 hn
      obtain ⟨hb, hclean⟩ := List.mem_filter.1 hb
      have hmem : b ∈ bs := hordered ▸ List.mem_append_left _ hb
      rcases hbs.named b hmem with h | h
      · rw [h.1] at hclean
        cases hclean
      · exact h.2.1
  have hprogram : (t.out.program cleanup).assignments.foldl E.assign m = E.exec bs m := by
    rw [← hordered]
    rfl
  have h := run_agree (hprogram ▸ hagree m) hcleared
  exact ⟨h.1, fun leaf hleaf => h.2 leaf (hleaves hleaf), h.2⟩

end Extract

/-- Every text but the read of the first argument is a variable; worlds count property reads. -/
def counting : Meaning Nat Nat where
  eval text env w := (if text = argumentRead 0 then 7 else env text, w)
  names text := if text = argumentRead 0 then [] else [text]
  eval_congr := by
    intro text env env' h
    funext w
    by_cases htext : text = argumentRead 0
    · simp [htext]
    · simp [htext, h text (by simp [htext])]
  isUndefined v := v == 0
  null := 0
  get v _ w := (v + 1, w + 1)
  tail v n w := (v + n, w + 1)

theorem counting_isVariable (k : Nat) : counting.IsVariable (NameSet.numbered "$D" k) := by
  have hne : NameSet.numbered "$D" k ≠ argumentRead 0 := by
    intro h
    have hhead : (argumentRead 0).toList.head? = some '$' := by
      rw [← h]
      simp [NameSet.numbered]
    exact absurd hhead (by decide)
  intro env w
  simp [counting, hne]

def sampleContext : ExtractionContext := ⟨['k', '+', 'd'], "$D"⟩

def sampleNames : NameSet := { taken := ["b", "c", "e", "k", "d"] }

/-- `{a: [b, , ...c], [k]: e = d}` over the text `k+d`. -/
def samplePattern : Pattern :=
  let place : Span := ⟨0, 0⟩
  .object place [
    .mk (.ident "a") (.array place [.item (.ident "b" place) none, .hole] (some (.ident "c" place)))
      none,
    .mk (.computed ⟨0, 1⟩) (.ident "e" place) (some ⟨2, 3⟩)]

theorem extraction_preserves_sample : ∃ x names',
    sampleContext.extractor.run samplePattern (.argument 0) sampleNames () =
      (.ok x, names', ()) ∧
    x.declaration "" true = .ok ("var $D0 = arguments[0].a, b = $D0[0], " ++
      "c = [].slice.call($D0, 2), $D1 = arguments[0][k], " ++
      "e = $D1 === void 0 ? d : $D1;$D0 = null;$D1 = null;") ∧
    ∀ m, (counting.run (x.program true) m).world =
        (counting.destructureSource ['k', '+', 'd'] samplePattern (.argument 0) m).world ∧
      ∀ leaf ∈ ["b", "c", "e"], (counting.run (x.program true) m).env leaf =
        (counting.destructureSource ['k', '+', 'd'] samplePattern (.argument 0) m).env leaf := by
  have hpure : ∀ text, SourceExpr.argument 0 = .reference text →
      counting.IsPure text ∧ ∀ n ∈ counting.names text, n ∉ samplePattern.leaves := by
    intro text htext
    obtain rfl : argumentRead 0 = text := SourceExpr.reference.inj htext
    exact ⟨fun _ _ _ => rfl, by decide⟩
  refine ⟨_, _, rfl, rfl, fun m => ?_⟩
  obtain ⟨-, hmeaning⟩ := counting.extraction_preserves_destructuring
    (show sampleContext.extractor.run samplePattern (.argument 0) sampleNames () = _ from rfl)
    counting_isVariable (by decide) (by decide) (by decide) hpure "" true
  obtain ⟨hworld, hleaves, -⟩ := hmeaning m
  exact ⟨hworld, hleaves⟩

end Meaning

end ParamLowering
