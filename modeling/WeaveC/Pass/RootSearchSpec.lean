import WeaveC.Pass.RootSearch
import Mathlib.Data.List.Basic

/-!
# What the root search remembers

Without a cache or a budget, a node's root depends on the nodes being looked
through.  A search that never comes back to one of them gives the same root
wherever the node is reached from: whatever is looked through on the way to it
was itself looked through without an end in sight.  So a remembered root is the
one every later search finds.
-/

namespace WeaveC.Pass

variable {Value : Type} [DecidableEq Value] {g : Graph Value}

/-! ## Searches without a cache -/

/-- Inputs looked through one after another, by a relation for one of them;
`clean` says that none came back to a node being looked through. -/
inductive Looked (g : Graph Value) (visiting : List Value)
    (One : Value → Option Value → Bool → Prop) :
    List Value → InputRoots Value → InputRoots Value → Bool → Prop where
  | nil (f : InputRoots Value) : Looked g visiting One [] f f true
  | stop {input : Value} {rest : List Value} {f : InputRoots Value} {clean : Bool} :
      One input none clean → Looked g visiting One (input :: rest) f { f with none := true } clean
  | next {input root : Value} {rest : List Value} {f f' : InputRoots Value} {clean clean' : Bool} :
      One input (some root) clean →
        Looked g visiting One rest (f.add g visiting input root) f' clean' →
          Looked g visiting One (input :: rest) f f' (clean && clean')

/-- The root of a value while nodes are being looked through, found through at
most `height` more. -/
def Explores (g : Graph Value) (height : Nat) (visiting : List Value) (value : Value)
    (root : Option Value) (clean : Bool) : Prop :=
  match g.stripped 64 value with
  | none => root = none ∧ clean = true
  | some node =>
      match g.inputs node with
      | none => root = some node ∧ clean = true
      | some inputs =>
          if node ∈ visiting then root = some node ∧ clean = false
          else
            match height with
            | 0 => False
            | height + 1 => ∃ f, Looked g (node :: visiting) (Explores g height (node :: visiting))
                inputs .start f clean ∧ root = f.root node

/-- How a value's root is found. -/
inductive Found (g : Graph Value) (height : Nat) (visiting : List Value) (value : Value)
    (root : Option Value) (clean : Bool) : Prop where
  | noRoot (stripped : g.stripped 64 value = none) (eq : root = none) (isClean : clean = true)
  | leaf {node : Value} (stripped : g.stripped 64 value = some node) (inputs : g.inputs node = none)
      (eq : root = some node) (isClean : clean = true)
  | cycle {node : Value} {inputs : List Value} (stripped : g.stripped 64 value = some node)
      (some : g.inputs node = some inputs) (visited : node ∈ visiting) (eq : root = .some node)
      (notClean : clean = false)
  | node {node : Value} {inputs : List Value} {height' : Nat} {f : InputRoots Value}
      (stripped : g.stripped 64 value = some node) (some : g.inputs node = some inputs)
      (fresh : node ∉ visiting) (level : height = height' + 1)
      (looked : Looked g (node :: visiting) (Explores g height' (node :: visiting)) inputs .start f
        clean)
      (eq : root = f.root node)

section Explores

variable {height height' : Nat} {visiting visiting' : List Value} {value node : Value}
  {root root' : Option Value} {clean clean' : Bool} {inputs rest : List Value}
  {f f' : InputRoots Value} {One One' : Value → Option Value → Bool → Prop}

theorem Explores.found (explores : Explores g height visiting value root clean) :
    Found g height visiting value root clean := by
  unfold Explores at explores
  cases stripped : g.stripped 64 value with
  | none =>
      rw [stripped] at explores
      exact .noRoot stripped explores.1 explores.2
  | some node =>
      rw [stripped] at explores
      dsimp only at explores
      cases some : g.inputs node with
      | none =>
          rw [some] at explores
          exact .leaf stripped some explores.1 explores.2
      | some inputs =>
          rw [some] at explores
          dsimp only at explores
          by_cases visited : node ∈ visiting
          · rw [if_pos visited] at explores
            exact .cycle stripped some visited explores.1 explores.2
          · rw [if_neg visited] at explores
            cases height with
            | zero => exact explores.elim
            | succ height =>
                obtain ⟨f, looked, eq⟩ := explores
                exact .node stripped some visited rfl looked eq

theorem Explores.of_noRoot (stripped : g.stripped 64 value = none) (height : Nat)
    (visiting : List Value) : Explores g height visiting value none true := by
  unfold Explores
  rw [stripped]
  exact ⟨rfl, rfl⟩

theorem Explores.of_leaf (stripped : g.stripped 64 value = some node)
    (inputs : g.inputs node = none) (height : Nat) (visiting : List Value) :
    Explores g height visiting value (some node) true := by
  unfold Explores
  rw [stripped]
  dsimp only
  rw [inputs]
  exact ⟨rfl, rfl⟩

theorem Explores.of_cycle (stripped : g.stripped 64 value = some node)
    (some : g.inputs node = some inputs) (visited : node ∈ visiting) (height : Nat) :
    Explores g height visiting value (.some node) false := by
  unfold Explores
  rw [stripped]
  dsimp only
  rw [some]
  dsimp only
  rw [if_pos visited]
  exact ⟨rfl, rfl⟩

theorem Explores.of_node (stripped : g.stripped 64 value = some node)
    (some : g.inputs node = some inputs) (fresh : node ∉ visiting)
    (looked : Looked g (node :: visiting) (Explores g height (node :: visiting)) inputs .start f
      clean) : Explores g (height + 1) visiting value (f.root node) clean := by
  unfold Explores
  rw [stripped]
  dsimp only
  rw [some]
  dsimp only
  rw [if_neg fresh]
  exact ⟨f, looked, rfl⟩

theorem Looked.mono (looked : Looked g visiting One rest f f' clean)
    (weaker : ∀ v r c, One v r c → One' v r c) : Looked g visiting One' rest f f' clean := by
  induction looked with
  | nil f => exact .nil f
  | stop here => exact .stop (weaker _ _ _ here)
  | next here _ inductionHypothesis => exact .next (weaker _ _ _ here) inductionHypothesis

theorem Explores.mono (explores : Explores g height visiting value root clean)
    (more : height ≤ height') : Explores g height' visiting value root clean := by
  induction height' generalizing height visiting value root clean with
  | zero =>
      obtain rfl := Nat.le_zero.mp more
      exact explores
  | succ height' inductionHypothesis =>
      cases explores.found with
      | noRoot stripped eq isClean =>
          subst eq isClean
          exact .of_noRoot stripped _ _
      | leaf stripped inputs eq isClean =>
          subst eq isClean
          exact .of_leaf stripped inputs _ _
      | cycle stripped some visited eq notClean =>
          subst eq notClean
          exact .of_cycle stripped some visited _
      | node stripped some fresh level looked eq =>
          subst level eq
          exact .of_node stripped some fresh
            (looked.mono fun _ _ _ here => inductionHypothesis here (Nat.le_of_succ_le_succ more))

theorem Looked.det (looked : Looked g visiting One rest f f' clean) {f'' : InputRoots Value}
    (looked' : Looked g visiting One' rest f f'' clean')
    (det : ∀ v r c r' c', One v r c → One' v r' c' → r = r' ∧ c = c') :
    f' = f'' ∧ clean = clean' := by
  induction looked generalizing clean' with
  | nil f =>
      cases looked'
      exact ⟨rfl, rfl⟩
  | stop here =>
      cases looked' with
      | stop here' => exact ⟨rfl, (det _ _ _ _ _ here here').2⟩
      | next here' _ => cases (det _ _ _ _ _ here here').1
  | next here _ inductionHypothesis =>
      cases looked' with
      | stop here' => cases (det _ _ _ _ _ here here').1
      | next here' later =>
          obtain ⟨root, clean⟩ := det _ _ _ _ _ here here'
          obtain rfl := Option.some.inj root
          obtain ⟨rfl, clean'⟩ := inductionHypothesis later
          exact ⟨rfl, by rw [clean, clean']⟩

/-- A value has one root. -/
theorem Explores.det (explores : Explores g height visiting value root clean)
    (explores' : Explores g height' visiting value root' clean') :
    root = root' ∧ clean = clean' := by
  induction height using Nat.strongRecOn generalizing height' visiting value root root'
    clean clean' with
  | ind height inductionHypothesis =>
      unfold Explores at explores'
      cases explores.found with
      | noRoot stripped eq isClean =>
          rw [stripped] at explores'
          exact ⟨eq.trans explores'.1.symm, isClean.trans explores'.2.symm⟩
      | leaf stripped inputs eq isClean =>
          rw [stripped] at explores'
          dsimp only at explores'
          rw [inputs] at explores'
          exact ⟨eq.trans explores'.1.symm, isClean.trans explores'.2.symm⟩
      | cycle stripped some visited eq notClean =>
          rw [stripped] at explores'
          dsimp only at explores'
          rw [some] at explores'
          dsimp only at explores'
          rw [if_pos visited] at explores'
          exact ⟨eq.trans explores'.1.symm, notClean.trans explores'.2.symm⟩
      | node stripped some fresh level looked eq =>
          rw [stripped] at explores'
          dsimp only at explores'
          rw [some] at explores'
          dsimp only at explores'
          rw [if_neg fresh] at explores'
          cases height' with
          | zero => exact explores'.elim
          | succ height' =>
              obtain ⟨f', looked', eq'⟩ := explores'
              obtain ⟨rfl, same⟩ := looked.det looked' fun _ _ _ _ _ here here' =>
                inductionHypothesis _ (by omega) here here'
              exact ⟨eq.trans eq'.symm, same⟩

/-! ## Roots that do not depend on the nodes being looked through -/

/-- Phis and selects. -/
def Nodes (g : Graph Value) (visiting : List Value) : Prop :=
  ∀ node ∈ visiting, g.inputs node ≠ none

omit [DecidableEq Value] in
theorem Nodes.cons (nodes : Nodes g visiting) (some : g.inputs node = some inputs) :
    Nodes g (node :: visiting) := by
  intro n mem
  rcases List.mem_cons.mp mem with rfl | mem
  · rw [some]
    exact Option.some_ne_none _
  · exact nodes n mem

theorem InputRoots.add_fresh {input v : Value} (f : InputRoots Value) (fresh : v ∉ visiting) :
    f.add g visiting input v = f.add g [] input v := by
  unfold InputRoots.add
  rw [if_neg fresh, if_neg List.not_mem_nil]

omit [DecidableEq Value] in
theorem InputRoots.root_eq_some {f : InputRoots Value} {v r : Value} (root : f.root v = some r) :
    f.cycle = some r ∨ f.common = some r ∨ r = v := by
  unfold InputRoots.root at root
  cases common : f.common with
  | none =>
      rw [common] at root
      dsimp only at root
      split_ifs at root
      exact .inl root
  | some c =>
      rw [common] at root
      dsimp only at root
      split_ifs at root
      · exact .inr (.inl root)
      · exact .inr (.inr (Option.some.inj root).symm)

theorem Looked.fresh (looked : Looked g visiting One rest f f' clean) (isClean : clean = true)
    (one : ∀ v r, One v (some r) true → r ∉ visiting) (cycle : f.cycle = none)
    (common : ∀ r, f.common = some r → r ∉ visiting) :
    f'.cycle = none ∧ ∀ r, f'.common = some r → r ∉ visiting := by
  induction looked with
  | nil f => exact ⟨cycle, common⟩
  | stop here => exact ⟨cycle, common⟩
  | @next input root rest f f' clean clean' here _ inductionHypothesis =>
      obtain ⟨first, second⟩ := Bool.and_eq_true_iff.mp isClean
      subst first
      have out := one input root here
      refine inductionHypothesis second ?_ ?_
      · rw [f.add_fresh out]
        unfold InputRoots.add
        rw [if_neg List.not_mem_nil]
        dsimp only
        split <;> exact cycle
      · intro r
        rw [f.add_fresh out]
        unfold InputRoots.add
        rw [if_neg List.not_mem_nil]
        dsimp only
        split
        · intro same
          obtain rfl := Option.some.inj same
          exact out
        · intro same
          exact common r same

/-- A root found without coming back is not a node being looked through. -/
theorem Explores.fresh {r : Value} (explores : Explores g height visiting value (some r) true)
    (nodes : Nodes g visiting) : r ∉ visiting := by
  induction height using Nat.strongRecOn generalizing visiting value r with
  | ind height inductionHypothesis =>
      cases explores.found with
      | noRoot _ eq _ => cases eq
      | leaf _ inputs eq _ =>
          obtain rfl := Option.some.inj eq
          exact fun mem => nodes r mem inputs
      | cycle _ _ _ _ notClean => cases notClean
      | @node node inputs height' f stripped some fresh level looked eq =>
          obtain ⟨cycle, common⟩ := looked.fresh rfl
            (fun v r here => inductionHypothesis height' (by omega) here (nodes.cons some)) rfl
            (fun r none => by cases none)
          rcases InputRoots.root_eq_some eq.symm with back | found | rfl
          · rw [cycle] at back
            cases back
          · exact fun mem => common r found (List.mem_cons_of_mem node mem)
          · exact fresh

/-! ## The nodes being looked through -/

/-- The search is at the value: an input of the innermost node, with a root for
each input before it. -/
def Next (g : Graph Value) (visiting : List Value) (value : Value) : Prop :=
  ∀ node outer, visiting = node :: outer →
    ∃ pre post, g.inputs node = some (pre ++ value :: post) ∧
      ∀ u ∈ pre, ∃ height r clean, Explores g height visiting u (some r) clean

/-- Each node being looked through was reached from the one outside it. -/
inductive Path (g : Graph Value) : List Value → Prop where
  | nil : Path g []
  | cons {visiting : List Value} {value node : Value} {inputs : List Value} :
      Path g visiting → Next g visiting value → g.stripped 64 value = some node →
        g.inputs node = some inputs → node ∉ visiting → Path g (node :: visiting)

theorem Path.nodes (path : Path g visiting) : Nodes g visiting := by
  induction path with
  | nil =>
      intro node mem
      cases mem
  | cons _ _ _ some _ inductionHypothesis => exact inductionHypothesis.cons some

/-- Roots found without coming back are found on every path, up to a height. -/
def StableTo (g : Graph Value) (height : Nat) : Prop :=
  ∀ level ≤ height, ∀ visiting visiting' value root, Nodes g visiting →
    Explores g level visiting value root true → Path g visiting' → Next g visiting' value →
      Explores g level visiting' value root true

theorem Looked.reaches {pre post : List Value} {input : Value}
    (looked : Looked g visiting One (pre ++ input :: post) f f' clean) (isClean : clean = true)
    (on : ∀ u ∈ pre, ¬ One u none true) : ∃ r, One input r true := by
  induction pre generalizing f clean with
  | nil =>
      cases looked with
      | stop here =>
          subst isClean
          exact ⟨_, here⟩
      | next here later =>
          obtain ⟨first, -⟩ := Bool.and_eq_true_iff.mp isClean
          subst first
          exact ⟨_, here⟩
  | cons u pre inductionHypothesis =>
      cases looked with
      | stop here =>
          subst isClean
          exact absurd here (on u (List.mem_cons_self ..))
      | next _ later =>
          exact inductionHypothesis later (Bool.and_eq_true_iff.mp isClean).2
            fun w mem => on w (List.mem_cons_of_mem u mem)

/-- A clean search through a node comes to every input that the path goes on
through. -/
theorem StableTo.reaches (stable : StableTo g height) {outer outer' : List Value}
    (nodes : Nodes g (node :: outer)) (listed : g.inputs node = some inputs)
    (looked : Looked g (node :: outer) (Explores g height (node :: outer)) inputs .start f true)
    (path : Path g (node :: outer')) (next : Next g (node :: outer') value) :
    ∃ r, Explores g height (node :: outer) value r true := by
  obtain ⟨pre, post, eq, rooted⟩ := next node outer' rfl
  rw [listed] at eq
  obtain rfl := Option.some.inj eq
  refine looked.reaches rfl fun u mem without => ?_
  -- the input before it has a root on the path
  obtain ⟨before, after, rfl⟩ := List.append_of_mem mem
  obtain ⟨height', r, clean, found⟩ := rooted u mem
  have here : Next g (node :: outer') u := by
    rintro node' outer'' same
    obtain ⟨rfl, rfl⟩ := List.cons.inj same
    refine ⟨before, after ++ value :: post, ?_, fun w earlier => ?_⟩
    · rw [listed, List.append_assoc, List.cons_append]
    · exact rooted w (List.mem_append_left _ earlier)
  have also := stable height (Nat.le_refl _) _ _ u none nodes without path here
  cases (also.det found).1

/-- On a path that leads back to a node, a clean search through the node would
have come to the path's end. -/
theorem StableTo.walk (stable : StableTo g height) (nodes : Nodes g visiting)
    (listed : g.inputs node = some inputs)
    (looked : Looked g (node :: visiting) (Explores g height (node :: visiting)) inputs .start f
      true) (path : Path g visiting') (mem : node ∈ visiting') :
    ∃ inner outer' outer level inputs' f', visiting' = inner :: outer' ∧ level ≤ height ∧
      node ∈ inner :: outer ∧ Nodes g (inner :: outer) ∧ g.inputs inner = some inputs' ∧
        Looked g (inner :: outer) (Explores g level (inner :: outer)) inputs' .start f' true := by
  induction path with
  | nil => cases mem
  | @cons visiting' value next inputs' path here stripped listed' fresh' inductionHypothesis =>
      by_cases same : node = next
      · subst same
        exact ⟨node, visiting', visiting, height, inputs, f, rfl, Nat.le_refl _,
          List.mem_cons_self .., nodes.cons listed, listed, looked⟩
      · obtain ⟨inner, outer', outer, level, inner_inputs, f', rfl, below, inside, nodes',
          inner_listed, inner_looked⟩ :=
            inductionHypothesis ((List.mem_cons.mp mem).resolve_left same)
        have stable' : StableTo g level := fun k least => stable k (Nat.le_trans least below)
        obtain ⟨r, reached⟩ := stable'.reaches nodes' inner_listed inner_looked path here
        cases reached.found with
        | noRoot none _ _ => cases stripped.symm.trans none
        | leaf stripped' inputs' _ _ =>
            obtain rfl := Option.some.inj (stripped.symm.trans stripped')
            cases listed'.symm.trans inputs'
        | cycle _ _ _ _ notClean => cases notClean
        | node stripped' next_listed _ eq next_looked _ =>
            obtain rfl := Option.some.inj (stripped.symm.trans stripped')
            subst eq
            exact ⟨next, inner :: outer', inner :: outer, _, _, _, rfl,
              Nat.le_trans (Nat.le_succ _) below, List.mem_cons_of_mem _ inside,
              nodes'.cons next_listed, next_listed, next_looked⟩

/-- The inputs of a node, looked through on two paths. -/
theorem Looked.along (looked : Looked g visiting One rest f f' clean) (isClean : clean = true)
    (step : ∀ pre value post r, inputs = pre ++ value :: post →
      (∀ u ∈ pre, ∃ r c, One' u (some r) c) → One value r true → One' value r true)
    (fresh : ∀ v r, One v (some r) true → r ∉ visiting)
    (fresh' : ∀ v r, One' v (some r) true → r ∉ visiting') (pre : List Value)
    (eq : inputs = pre ++ rest) (rooted : ∀ u ∈ pre, ∃ r c, One' u (some r) c) :
    Looked g visiting' One' rest f f' clean := by
  induction looked generalizing pre with
  | nil f => exact .nil f
  | @stop input rest f clean here =>
      subst isClean
      exact .stop (step pre input rest none eq rooted here)
  | @next input root rest f f' clean clean' here _ inductionHypothesis =>
      obtain ⟨first, second⟩ := Bool.and_eq_true_iff.mp isClean
      subst first
      have here' := step pre input rest _ eq rooted here
      refine .next here' ?_
      have same : f.add g visiting input root = f.add g visiting' input root := by
        rw [f.add_fresh (fresh _ _ here), f.add_fresh (fresh' _ _ here')]
      rw [← same]
      refine inductionHypothesis second (pre ++ [input]) ?_ fun u mem => ?_
      · rw [eq, List.append_assoc]
        rfl
      · rcases List.mem_append.mp mem with earlier | last
        · exact rooted u earlier
        · obtain rfl := List.mem_singleton.mp last
          exact ⟨root, true, here'⟩

/-- A root found without coming back is found on every path. -/
theorem stableTo (g : Graph Value) (height : Nat) : StableTo g height := by
  induction height using Nat.strongRecOn with
  | ind height inductionHypothesis =>
      intro level below visiting visiting' value root nodes explores path next
      cases explores.found with
      | noRoot stripped eq _ =>
          subst eq
          exact .of_noRoot stripped _ _
      | leaf stripped inputs eq _ =>
          subst eq
          exact .of_leaf stripped inputs _ _
      | cycle _ _ _ _ notClean => cases notClean
      | @node node inputs level' f stripped listed fresh eq looked rootEq =>
          subst eq rootEq
          have stable : StableTo g level' := inductionHypothesis level' below
          have fresh' : node ∉ visiting' := by
            intro mem
            obtain ⟨inner, outer', outer, k, inputs', f', rfl, least, inside, nodes', listed',
              looked'⟩ := stable.walk nodes listed looked path mem
            have stable' : StableTo g k := fun j less => stable j (Nat.le_trans less least)
            obtain ⟨r, reached⟩ := stable'.reaches nodes' listed' looked' path next
            have back := Explores.of_cycle stripped listed inside k
            cases (reached.det back).2
          have path' := path.cons next stripped listed fresh'
          refine .of_node stripped listed fresh' (looked.along rfl ?_ ?_ ?_ []
            (List.nil_append inputs).symm fun u none => by cases none)
          · intro pre v post r split rooted here
            refine stable level' (Nat.le_refl _) _ _ v r (nodes.cons listed) here path' ?_
            rintro node' outer same
            obtain ⟨rfl, rfl⟩ := List.cons.inj same
            refine ⟨pre, post, ?_, fun u mem => ?_⟩
            · rw [listed, split]
            · obtain ⟨r, c, found⟩ := rooted u mem
              exact ⟨level', r, c, found⟩
          · exact fun v r here => here.fresh (nodes.cons listed)
          · exact fun v r here => here.fresh path'.nodes

end Explores

/-! ## The search with its cache -/

/-- What the cache remembers was found without coming back. -/
def RootCache.Sound (g : Graph Value) (known : RootCache Value) : Prop :=
  ∀ node root, known node = some root → ∃ height visiting, Nodes g visiting ∧
    ∀ value, g.stripped 64 value = some node → Explores g height visiting value root true

theorem RootCache.Sound.of_empty (g : Graph Value) :
    (RootCache.empty : RootCache Value).Sound g := by
  intro node root found
  cases found

theorem RootCache.Sound.remember {search : RootSearch Value} (sound : search.known.Sound g)
    {node : Value} {root : Option Value} {height : Nat} {visiting : List Value}
    (nodes : Nodes g visiting) (explores : ∀ value, g.stripped 64 value = some node →
      Explores g height visiting value root true) : (search.remember node root).known.Sound g := by
  intro node' root' remembered
  unfold RootSearch.remember at remembered
  dsimp only at remembered
  by_cases here : node' = node
  · subst here
    rw [Function.update_self] at remembered
    obtain rfl := Option.some.inj remembered
    exact ⟨height, visiting, nodes, explores⟩
  · rw [Function.update_of_ne here] at remembered
    exact sound node' root' remembered

/-- What a search leaves behind: no budget it did not have, and the same or
sounder knowledge; it has not run out unless it says so. -/
structure Later (search after : RootSearch Value) : Prop where
  budget : after.budget ≤ search.budget
  cycles : search.cycles ≤ after.cycles
  starved : search.starved = true → after.starved = true

omit [DecidableEq Value] in
theorem Later.refl (search : RootSearch Value) : Later search search :=
  ⟨Nat.le_refl _, Nat.le_refl _, id⟩

omit [DecidableEq Value] in
theorem Later.trans {search after last : RootSearch Value} (first : Later search after)
    (second : Later after last) : Later search last :=
  ⟨Nat.le_trans second.budget first.budget, Nat.le_trans first.cycles second.cycles,
    fun starved => second.starved (first.starved starved)⟩

section Search

variable {visiting : List Value} {inputs : List Value}
  {one : Value → RootSearch Value → Option Value × RootSearch Value}

theorem lookThrough_later (g : Graph Value) (visiting : List Value)
    (later : ∀ v search, Later search (one v search).2) (rest : List Value)
    (f : InputRoots Value) (search : RootSearch Value) :
    Later search (lookThrough g visiting one rest f search).2 := by
  induction rest generalizing f search with
  | nil => exact .refl search
  | cons input rest inductionHypothesis =>
      have first := later input search
      unfold lookThrough
      cases here : one input search with
      | mk root after =>
          rw [here] at first
          cases root with
          | none => exact first
          | some root => exact first.trans (inductionHypothesis _ after)

/-- How a search goes at a value. -/
inductive Ran (g : Graph Value) (fuel : Nat) (visiting : List Value) (value : Value)
    (search : RootSearch Value) : Option Value × RootSearch Value → Prop where
  | noRoot (stripped : g.stripped 64 value = none) : Ran g fuel visiting value search (none, search)
  | leaf {node : Value} (stripped : g.stripped 64 value = some node) (inputs : g.inputs node = none) :
      Ran g fuel visiting value search (some node, search)
  | cycle {node : Value} {inputs : List Value} (stripped : g.stripped 64 value = some node)
      (listed : g.inputs node = some inputs) (visited : node ∈ visiting) :
      Ran g fuel visiting value search (some node, { search with cycles := search.cycles + 1 })
  | known {node : Value} {root : Option Value} (stripped : g.stripped 64 value = some node)
      (remembered : search.known node = some root) : Ran g fuel visiting value search (root, search)
  | starved : Ran g fuel visiting value search (none, { search with starved := true })
  | node {node : Value} {inputs : List Value} {fuel' : Nat} {found : InputRoots Value}
      {after : RootSearch Value} (level : fuel = fuel' + 1)
      (stripped : g.stripped 64 value = some node) (listed : g.inputs node = some inputs)
      (fresh : node ∉ visiting)
      (looked : lookThrough g (node :: visiting) (rootUnder g fuel' (node :: visiting)) inputs
        .start { search with budget := search.budget - 1 } = (found, after)) :
      Ran g fuel visiting value search (found.root node,
        if after.cycles = search.cycles ∧ after.budget ≠ 0 then
          after.remember node (found.root node)
        else after)

theorem rootUnder_ran (g : Graph Value) (fuel : Nat) (visiting : List Value) (value : Value)
    (search : RootSearch Value) :
    Ran g fuel visiting value search (rootUnder g fuel visiting value search) := by
  rw [rootUnder]
  cases stripped : g.stripped 64 value with
  | none => exact .noRoot stripped
  | some node =>
      dsimp only
      cases listed : g.inputs node with
      | none => exact .leaf stripped listed
      | some inputs =>
          dsimp only
          by_cases visited : node ∈ visiting
          · rw [if_pos visited]
            exact .cycle stripped listed visited
          · rw [if_neg visited]
            cases remembered : search.known node with
            | some root => exact .known stripped remembered
            | none =>
                cases fuel with
                | zero => exact .starved
                | succ fuel =>
                    dsimp only
                    by_cases spent : search.budget = 0
                    · rw [if_pos spent]
                      exact .starved
                    · rw [if_neg spent]
                      exact .node rfl stripped listed visited rfl

theorem rootUnder_later (g : Graph Value) (fuel : Nat) (visiting : List Value) (value : Value)
    (search : RootSearch Value) : Later search (rootUnder g fuel visiting value search).2 := by
  induction fuel using Nat.strongRecOn generalizing visiting value search with
  | ind fuel inductionHypothesis =>
      cases eq : rootUnder g fuel visiting value search with
      | mk root after =>
          have ran := rootUnder_ran g fuel visiting value search
          rw [eq] at ran
          cases ran with
          | noRoot | leaf | known => exact .refl search
          | cycle => exact ⟨Nat.le_refl _, Nat.le_succ _, id⟩
          | starved => exact ⟨Nat.le_refl _, Nat.le_refl _, fun _ => rfl⟩
          | @node node inputs fuel' found after level _ _ _ looked =>
              have later := lookThrough_later g (node :: visiting)
                (fun v search => inductionHypothesis fuel' (by omega) (node :: visiting) v search)
                inputs .start { search with budget := search.budget - 1 }
              rw [looked] at later
              have first : Later search { search with budget := search.budget - 1 } :=
                ⟨Nat.sub_le _ _, Nat.le_refl _, id⟩
              have last := first.trans later
              dsimp only at last ⊢
              split
              · exact ⟨last.budget, last.cycles, last.starved⟩
              · exact last

theorem lookThrough_congr (g : Graph Value) (visiting : List Value) {budget : Nat}
    {one' : Value → RootSearch Value → Option Value × RootSearch Value}
    (later : ∀ v search, Later search (one v search).2)
    (same : ∀ v (search : RootSearch Value), search.budget ≤ budget → one v search = one' v search)
    (rest : List Value) (f : InputRoots Value) (search : RootSearch Value)
    (within : search.budget ≤ budget) :
    lookThrough g visiting one rest f search = lookThrough g visiting one' rest f search := by
  induction rest generalizing f search with
  | nil => rfl
  | cons input rest inductionHypothesis =>
      have first := later input search
      unfold lookThrough
      rw [← same input search within]
      cases here : one input search with
      | mk root after =>
          rw [here] at first
          cases root with
          | none => rfl
          | some root => exact inductionHypothesis _ after (Nat.le_trans first.budget within)

/-- The budget bounds the recursion. -/
theorem rootUnder_fuel (g : Graph Value) {fuel fuel' : Nat} (visiting : List Value) (value : Value)
    (search : RootSearch Value) (enough : search.budget < fuel) (enough' : search.budget < fuel') :
    rootUnder g fuel visiting value search = rootUnder g fuel' visiting value search := by
  induction fuel generalizing fuel' visiting value search with
  | zero => exact absurd enough (Nat.not_lt_zero _)
  | succ fuel inductionHypothesis =>
      cases fuel' with
      | zero => exact absurd enough' (Nat.not_lt_zero _)
      | succ fuel' =>
          rw [rootUnder, rootUnder]
          cases stripped : g.stripped 64 value with
          | none => rfl
          | some node =>
              dsimp only
              cases listed : g.inputs node with
              | none => rfl
              | some inputs =>
                  dsimp only
                  by_cases spent : search.budget = 0
                  · rw [if_pos spent, if_pos spent]
                  · rw [if_neg spent, if_neg spent]
                    have deeper (v : Value) (below : RootSearch Value)
                        (within : below.budget ≤ search.budget - 1) :
                        rootUnder g fuel (node :: visiting) v below =
                          rootUnder g fuel' (node :: visiting) v below :=
                      inductionHypothesis (node :: visiting) v below (by omega) (by omega)
                    have looked := lookThrough_congr g (node :: visiting)
                      (rootUnder_later g fuel (node :: visiting)) deeper inputs .start
                      { search with budget := search.budget - 1 } (Nat.le_refl _)
                    rw [looked]

/-- What a search finds without running out of its budget is the value's root,
and it came back to no node being looked through exactly when it says so. -/
structure Finds (g : Graph Value) (visiting : List Value) (value : Value)
    (search : RootSearch Value) (root : Option Value) (after : RootSearch Value) : Prop where
  sound : after.known.Sound g
  explores : ∃ height clean, Explores g height visiting value root clean ∧
    (after.cycles = search.cycles ↔ clean = true)

theorem lookThrough_finds {node : Value} (pre : List Value) {rest : List Value} {f f' : InputRoots Value}
    {search after : RootSearch Value} (listed : g.inputs node = some (pre ++ rest))
    (rooted : ∀ u ∈ pre, ∃ height r clean,
      Explores g height (node :: visiting) u (some r) clean)
    (finds : ∀ v search root after, Next g (node :: visiting) v → search.known.Sound g →
      one v search = (root, after) → after.starved = false →
        Finds g (node :: visiting) v search root after)
    (later : ∀ v search, Later search (one v search).2) (sound : search.known.Sound g)
    (looked : lookThrough g (node :: visiting) one rest f search = (f', after))
    (fed : after.starved = false) :
    after.known.Sound g ∧ ∃ height clean,
      Looked g (node :: visiting) (Explores g height (node :: visiting)) rest f f' clean ∧
        (after.cycles = search.cycles ↔ clean = true) := by
  induction rest generalizing pre f search with
  | nil =>
      obtain ⟨rfl, rfl⟩ := Prod.mk.inj looked
      exact ⟨sound, 0, true, .nil _, iff_of_true rfl rfl⟩
  | cons input rest inductionHypothesis =>
      have next : Next g (node :: visiting) input := by
        rintro node' outer same
        obtain ⟨rfl, rfl⟩ := List.cons.inj same
        exact ⟨pre, rest, listed, rooted⟩
      have first := later input search
      unfold lookThrough at looked
      cases here : one input search with
      | mk root mid =>
          rw [here] at looked first
          cases root with
          | none =>
              obtain ⟨rfl, rfl⟩ := Prod.mk.inj looked
              obtain ⟨sound', height, clean, explores, same⟩ :=
                finds input search none mid next sound here fed
              exact ⟨sound', height, clean, .stop explores, same⟩
          | some root =>
              dsimp only at looked first
              have rest_later := lookThrough_later g (node :: visiting) later rest
                (f.add g (node :: visiting) input root) mid
              rw [looked] at rest_later
              have mid_fed : mid.starved = false := by
                rw [← Bool.not_eq_true]
                intro starved
                have ends := rest_later.starved starved
                rw [fed] at ends
                cases ends
              obtain ⟨sound', height, clean, explores, same⟩ :=
                finds input search (some root) mid next sound here mid_fed
              have rooted' : ∀ u ∈ pre ++ [input], ∃ height r clean,
                  Explores g height (node :: visiting) u (some r) clean := by
                intro u mem
                rcases List.mem_append.mp mem with earlier | last
                · exact rooted u earlier
                · obtain rfl := List.mem_singleton.mp last
                  exact ⟨height, root, clean, explores⟩
              obtain ⟨sound'', height', clean', explores', same'⟩ :=
                inductionHypothesis (pre ++ [input])
                  (by rw [listed, List.append_assoc]; rfl) rooted' sound' looked
              have cycles := first.cycles
              have cycles' := rest_later.cycles
              dsimp only at cycles'
              refine ⟨sound'', max height height', clean && clean',
                .next (explores.mono (Nat.le_max_left ..))
                  (explores'.mono fun _ _ _ one => one.mono (Nat.le_max_right ..)), ?_⟩
              rw [Bool.and_eq_true, ← same, ← same']
              omega

/-- A search that does not run out of its budget finds what a search without a
cache finds, and remembers only what does not depend on its path. -/
theorem rootUnder_finds (g : Graph Value) (fuel : Nat) {visiting : List Value} {value : Value}
    {search after : RootSearch Value} {root : Option Value} (path : Path g visiting)
    (next : Next g visiting value) (sound : search.known.Sound g)
    (ran : rootUnder g fuel visiting value search = (root, after)) (fed : after.starved = false) :
    Finds g visiting value search root after := by
  induction fuel using Nat.strongRecOn generalizing visiting value search after root with
  | ind fuel inductionHypothesis =>
      have way := rootUnder_ran g fuel visiting value search
      rw [ran] at way
      cases way with
      | noRoot stripped =>
          exact ⟨sound, 0, true, .of_noRoot stripped 0 _, iff_of_true rfl rfl⟩
      | leaf stripped inputs =>
          exact ⟨sound, 0, true, .of_leaf stripped inputs 0 _, iff_of_true rfl rfl⟩
      | cycle stripped listed visited =>
          exact ⟨sound, 0, false, .of_cycle stripped listed visited 0,
            iff_of_false (Nat.succ_ne_self _) Bool.false_ne_true⟩
      | known stripped remembered =>
          obtain ⟨height, outer, nodes, explores⟩ := sound _ _ remembered
          exact ⟨sound, height, true, stableTo g height height (Nat.le_refl _) outer visiting value
            root nodes (explores value stripped) path next, iff_of_true rfl rfl⟩
      | starved => cases fed
      | @node node inputs fuel' found mid level stripped listed fresh looked =>
          have inner := path.cons next stripped listed fresh
          have fed' : mid.starved = false := by
            split at fed <;> exact fed
          have start : RootCache.Sound g
              ({ search with budget := search.budget - 1 } : RootSearch Value).known := sound
          obtain ⟨sound', height, clean, explores, same⟩ :=
            lookThrough_finds [] listed (fun u none => by cases none)
              (fun v search root after next sound ran fed =>
                inductionHypothesis fuel' (by omega) inner next sound ran fed)
              (fun v search => rootUnder_later g fuel' (node :: visiting) v search) start looked fed'
          have whole := Explores.of_node stripped listed fresh explores
          refine ⟨?_, height + 1, clean, whole, ?_⟩
          · by_cases alone : mid.cycles = search.cycles ∧ mid.budget ≠ 0
            · rw [if_pos alone]
              obtain rfl := same.mp alone.1
              exact sound'.remember path.nodes fun v stripped' =>
                .of_node stripped' listed fresh explores
            · rw [if_neg alone]
              exact sound'
          · rw [← same]
            split <;> exact Iff.rfl

end Search

/-! ## Queries -/

theorem colorRoot_eq {base : Value} (known : RootCache Value)
    (chain : (∃ pointer, g.shape base = .gep pointer) ∨ ∃ integer, g.shape base = .intToPtr integer) :
    colorRoot g (some base) known =
      ((rootUnder g 257 [] base (.of known)).1.filter g.holds,
        (rootUnder g 257 [] base (.of known)).2.known,
        (rootUnder g 257 [] base (.of known)).2.starved) := by
  unfold colorRoot
  dsimp only
  rcases chain with ⟨pointer, shape⟩ | ⟨integer, shape⟩
  · rw [shape]
  · rw [shape]

/-- A query with a sound cache: the cache is sound after it, and the answer is
that of the query without one. -/
theorem colorRoot_alone (base : Option Value) {known : RootCache Value} (sound : known.Sound g)
    (fed : (colorRoot g base known).2.2 = false) (fed' : (colorRoot g base .empty).2.2 = false) :
    (colorRoot g base known).2.1.Sound g ∧
      (colorRoot g base known).1 = (colorRoot g base .empty).1 := by
  cases base with
  | none => exact ⟨sound, rfl⟩
  | some base =>
      by_cases chain : (∃ pointer, g.shape base = .gep pointer) ∨
          ∃ integer, g.shape base = .intToPtr integer
      · rw [colorRoot_eq known chain] at fed ⊢
        rw [colorRoot_eq .empty chain] at fed' ⊢
        have start : Next g [] base := by
          intro node outer same
          cases same
        have shared : RootCache.Sound g (RootSearch.of known).known := sound
        have lone : RootCache.Sound g (RootSearch.of (.empty : RootCache Value)).known :=
          .of_empty g
        obtain ⟨sound', height, clean, explores, -⟩ :=
          rootUnder_finds g 257 .nil start shared rfl fed
        obtain ⟨-, height', clean', explores', -⟩ :=
          rootUnder_finds g 257 .nil start lone rfl fed'
        dsimp only
        rw [(explores.det explores').1]
        exact ⟨sound', rfl⟩
      · have other (known : RootCache Value) : colorRoot g (some base) known = (none, known, false) := by
          unfold colorRoot
          dsimp only
          cases shape : g.shape base with
          | gep pointer => exact absurd (.inl ⟨pointer, shape⟩) chain
          | intToPtr integer => exact absurd (.inr ⟨integer, shape⟩) chain
          | _ => rfl
        rw [other known, other .empty]
        exact ⟨sound, rfl⟩

theorem colorRoots_of_sound (bases : List (Option Value)) {known : RootCache Value}
    (sound : known.Sound g) (fed : ∀ answer ∈ colorRoots g known bases, answer.2 = false)
    (fed' : ∀ base ∈ bases, (colorRoot g base .empty).2.2 = false) :
    (colorRoots g known bases).map Prod.fst =
      bases.map fun base => (colorRoot g base .empty).1 := by
  induction bases generalizing known with
  | nil => rfl
  | cons base bases inductionHypothesis =>
      have head := colorRoot_alone base sound (fed _ (List.mem_cons_self ..))
        (fed' _ (List.mem_cons_self ..))
      have tail := inductionHypothesis head.1
        (fun answer mem => fed answer (List.mem_cons_of_mem _ mem))
        (fun base mem => fed' base (List.mem_cons_of_mem _ mem))
      rw [colorRoots, List.map_cons, List.map_cons, tail, ← head.2]

/-- Queries that share a cache answer as each would alone, as long as none runs
out of its budget. -/
theorem colorRoots_alone (g : Graph Value) (bases : List (Option Value))
    (fed : ∀ answer ∈ colorRoots g .empty bases, answer.2 = false)
    (fed' : ∀ base ∈ bases, (colorRoot g base .empty).2.2 = false) :
    (colorRoots g .empty bases).map Prod.fst =
      bases.map fun base => (colorRoot g base .empty).1 :=
  colorRoots_of_sound bases (.of_empty g) fed fed'

/-- A pointer walked by two nested loops, an address computed from it, and a
choice between it and another. -/
def nestedLoops : Graph Nat where
  stripPointerCasts := id
  shape := fun value =>
    match value with
    | 0 => .gep 1
    | 1 => .phi [2, 3]
    | 3 => .gep 4
    | 4 => .phi [5, 1]
    | 5 => .gep 4
    | 6 => .intToPtr 7
    | 10 => .gep 11
    | 11 => .select 1 12
    | _ => .other
  integer := fun value =>
    match value with
    | 7 => .binary .add 8 9
    | 8 => .ptrToInt 4
    | _ => .other

theorem colorRoots_alone_nested :
    (colorRoots nestedLoops .empty [some 5, some 6, some 10, some 0]).map Prod.fst =
      [some 5, some 6, some 10, some 0].map fun base => (colorRoot nestedLoops base .empty).1 :=
  colorRoots_alone nestedLoops _ (by decide +kernel) (by decide +kernel)

end WeaveC.Pass
