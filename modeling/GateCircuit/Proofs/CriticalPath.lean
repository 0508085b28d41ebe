/-
# Depth is the critical path

Gates at two positions are linked if they share a qubit; a chain goes from link to link. The pass that
finds the depth puts every gate on a layer and keeps, for each qubit, only the layer of its last gate.
That is enough: this layer is the length of the longest chain that ends on the qubit. So the layers
are a layering, every gate ends a chain as long as its layer is high, and as no chain is longer than a
layering is high, the depth is both the longest chain and the lowest layering.

Key definitions: `Uses`, `Linked`, `IsGateChain`, `IsLayering`, `PassInvariant`.
Key theorems: `IsGateChain.length_le`, `PassInvariant.step`, `PassInvariant.run`,
`depthOf_le_of_map`, `depthOf_congr`, `depth_is_critical_path`.
-/
import Mathlib
import GateCircuit.Circuit.Depth

namespace GateCircuit

/-! ### Chains and layerings -/

/-- The gate at position `i` of gates with these operand lists acts on qubit `q`. -/
def Uses (lists : List (List Qubit)) (i : ℕ) (q : Qubit) : Prop :=
  ∃ operands, lists[i]? = some operands ∧ q ∈ operands

/-- The gate at position `i` comes before the one at `j` and shares a qubit with it. -/
def Linked (lists : List (List Qubit)) (i j : ℕ) : Prop :=
  i < j ∧ ∃ q, Uses lists i q ∧ Uses lists j q

/-- Positions of gates, each linked to the next. -/
structure IsGateChain (lists : List (List Qubit)) (positions : List ℕ) : Prop where
  inside : ∀ i ∈ positions, i < lists.length
  linked : positions.IsChain (Linked lists)

/-- An assignment of the gates to layers `1` to `height` in which linked gates are on rising layers. -/
structure IsLayering (lists : List (List Qubit)) (height : ℕ) (layer : ℕ → ℕ) : Prop where
  positive : ∀ i < lists.length, 1 ≤ layer i
  le_height : ∀ i < lists.length, layer i ≤ height
  rising : ∀ i j, Linked lists i j → layer i < layer j

/-- **No chain is longer than a layering is high.** -/
theorem IsGateChain.length_le {lists : List (List Qubit)} {positions : List ℕ} {height : ℕ}
    {layer : ℕ → ℕ} (hc : IsGateChain lists positions) (hl : IsLayering lists height layer) :
    positions.length ≤ height := by
  -- what follows a position rises from its layer
  have key : ∀ (rest : List ℕ) (i : ℕ), (∀ j ∈ i :: rest, j < lists.length) →
      (i :: rest).IsChain (Linked lists) → layer i + rest.length ≤ height := by
    intro rest
    induction rest with
    | nil => exact fun i hin _ => hl.le_height i (hin i List.mem_cons_self)
    | cons j rest ih =>
      intro i hin hlinked
      rw [List.isChain_cons_cons] at hlinked
      have hrise := hl.rising i j hlinked.1
      have htail := ih j (fun k hk => hin k (List.mem_cons_of_mem _ hk)) hlinked.2
      rw [List.length_cons]
      omega
  cases positions with
  | nil => exact Nat.zero_le _
  | cons i rest =>
    have hpos := hl.positive i (hc.inside i List.mem_cons_self)
    have hrest := key rest i hc.inside hc.linked
    rw [List.length_cons]
    omega

/-! ### Layers of qubits -/

namespace Layers

theorem foldl_max_eq (layers : Layers) : ∀ (operands : List Qubit) (start : ℕ),
    operands.foldl (fun highest q => max highest (layers.getD q 0)) start =
      max start (layers.top operands)
  | [], start => by simp [top]
  | q :: operands, start => by
    rw [top, List.foldl_cons, List.foldl_cons, foldl_max_eq layers operands,
      foldl_max_eq layers operands]
    omega

theorem top_cons (layers : Layers) (q : Qubit) (operands : List Qubit) :
    layers.top (q :: operands) = max (layers.getD q 0) (layers.top operands) := by
  rw [top, List.foldl_cons, foldl_max_eq, Nat.zero_max]

theorem le_top (layers : Layers) {q : Qubit} : ∀ {operands : List Qubit}, q ∈ operands →
    layers.getD q 0 ≤ layers.top operands
  | p :: operands, h => by
    rw [top_cons]
    rcases List.mem_cons.mp h with rfl | h
    · exact Nat.le_max_left _ _
    · exact (le_top layers h).trans (Nat.le_max_right _ _)

/-- The highest layer is that of an operand, or there is none. -/
theorem top_attained (layers : Layers) : ∀ operands : List Qubit,
    layers.top operands = 0 ∨ ∃ q ∈ operands, layers.getD q 0 = layers.top operands
  | [] => .inl rfl
  | p :: operands => by
    rw [top_cons]
    rcases Nat.le_total (layers.top operands) (layers.getD p 0) with h | h
    · exact .inr ⟨p, List.mem_cons_self, (Nat.max_eq_left h).symm⟩
    · rw [Nat.max_eq_right h]
      rcases top_attained layers operands with h0 | ⟨q, hq, hlayer⟩
      · exact .inl h0
      · exact .inr ⟨q, List.mem_cons_of_mem _ hq, hlayer⟩

/-- A gate moves its operands, repeated or not, to its layer, and no other qubit. -/
theorem getD_land (layer : ℕ) (q : Qubit) : ∀ (operands : List Qubit) (layers : Layers),
    (layers.land operands layer).getD q 0 = if q ∈ operands then layer else layers.getD q 0
  | [], layers => by simp [land]
  | p :: operands, layers => by
    have hstep : layers.land (p :: operands) layer = Layers.land (layers.insert p layer) operands layer :=
      rfl
    rw [hstep, getD_land layer q operands, Std.HashMap.getD_insert]
    by_cases hq : q ∈ operands
    · simp [hq]
    · by_cases hp : p = q
      · simp [hp]
      · simp [hq, hp, Ne.symm hp]

end Layers

/-! ### The pass -/

section Past

variable {past : List (List Qubit)} {operands : List Qubit} {i j : ℕ} {q : Qubit}

theorem Uses.lt (h : Uses past i q) : i < past.length := by
  obtain ⟨list, hlist, -⟩ := h
  exact (List.getElem?_eq_some_iff.mp hlist).1

theorem uses_concat : Uses (past ++ [operands]) i q ↔
    Uses past i q ∨ (i = past.length ∧ q ∈ operands) := by
  unfold Uses
  rcases Nat.lt_trichotomy i past.length with h | rfl | h
  · rw [List.getElem?_append_left h]
    simp [h.ne]
  · simp
  · have hout : past[i]? = none := List.getElem?_eq_none (by omega)
    have hout' : (past ++ [operands])[i]? = none := List.getElem?_eq_none (by simp; omega)
    simp [hout, hout', h.ne']

theorem Linked.concat (h : Linked past i j) : Linked (past ++ [operands]) i j := by
  obtain ⟨hlt, q, hi, hj⟩ := h
  exact ⟨hlt, q, uses_concat.mpr (.inl hi), uses_concat.mpr (.inl hj)⟩

/-- A link to the last gate goes over one of its operands. -/
theorem linked_concat_cases (h : Linked (past ++ [operands]) i j) :
    Linked past i j ∨ (j = past.length ∧ ∃ q ∈ operands, Uses past i q) := by
  obtain ⟨hlt, q, hi, hj⟩ := h
  rcases uses_concat.mp hj with hj | ⟨rfl, hq⟩
  · rcases uses_concat.mp hi with hi | ⟨rfl, -⟩
    · exact .inl ⟨hlt, q, hi, hj⟩
    · exact absurd hj.lt (by omega)
  · rcases uses_concat.mp hi with hi | ⟨rfl, -⟩
    · exact .inr ⟨rfl, q, hq, hi⟩
    · exact absurd hlt (lt_irrefl _)

theorem IsGateChain.concat {positions : List ℕ} (h : IsGateChain past positions) :
    IsGateChain (past ++ [operands]) positions where
  inside i hi := by
    have := h.inside i hi
    rw [List.length_append]
    omega
  linked := h.linked.imp fun _ _ => Linked.concat

end Past

/-- What the pass has found after the gates of `past`, each of which it has put on a layer. -/
structure PassInvariant (past : List (List Qubit)) (layer : ℕ → ℕ) (layers : Layers) (depth : ℕ) :
    Prop where
  layering : IsLayering past depth layer
  /-- a qubit is on no lower layer than its gates -/
  le_layers : ∀ i q, Uses past i q → layer i ≤ layers.getD q 0
  /-- a qubit is on the layer of one of its gates -/
  layers_attained : ∀ q, layers.getD q 0 = 0 ∨ ∃ i, Uses past i q ∧ layer i = layers.getD q 0
  /-- a gate ends a chain as long as its layer is high -/
  chains : ∀ i < past.length, ∃ earlier,
    IsGateChain past (earlier ++ [i]) ∧ (earlier ++ [i]).length = layer i
  depth_attained : depth = 0 ∨ ∃ i < past.length, layer i = depth

namespace PassInvariant

variable {past : List (List Qubit)} {layer : ℕ → ℕ} {layers : Layers} {depth : ℕ}

theorem start : PassInvariant [] (fun _ => 0) ∅ 0 where
  layering := ⟨by simp, by simp, fun _ _ ⟨_, _, hi, _⟩ => absurd hi.lt (by simp)⟩
  le_layers i q h := absurd h.lt (by simp)
  layers_attained q := .inl (by simp)
  chains i hi := absurd hi (by simp)
  depth_attained := .inl rfl

/-- The layer of the next gate is the length of a chain that ends with it. -/
theorem chain_to_next (h : PassInvariant past layer layers depth) (operands : List Qubit) :
    ∃ earlier, IsGateChain (past ++ [operands]) (earlier ++ [past.length]) ∧
      (earlier ++ [past.length]).length = layers.top operands + 1 := by
  have hself : past.length < (past ++ [operands]).length := by simp
  have halone : IsGateChain (past ++ [operands]) ([] ++ [past.length]) :=
    ⟨by simp, List.isChain_singleton _⟩
  rcases layers.top_attained operands with htop | ⟨q, hq, htop⟩
  · exact ⟨[], halone, by simp [htop]⟩
  rcases h.layers_attained q with hzero | ⟨i, hi, hlayer⟩
  · exact ⟨[], halone, by simp [← htop, hzero]⟩
  -- the chain that ends with the last gate on `q` goes on to the next gate
  obtain ⟨earlier, hchain, hlen⟩ := h.chains i hi.lt
  have hlink : Linked (past ++ [operands]) i past.length :=
    ⟨hi.lt, q, uses_concat.mpr (.inl hi), uses_concat.mpr (.inr ⟨rfl, hq⟩)⟩
  refine ⟨earlier ++ [i], ⟨?_, ?_⟩, ?_⟩
  · intro j hj
    rcases List.mem_append.mp hj with hj | hj
    · exact hchain.concat.inside j hj
    · rw [List.mem_singleton.mp hj]
      exact hself
  · rw [List.append_assoc, List.singleton_append, List.isChain_split]
    exact ⟨hchain.concat.linked, List.isChain_pair.mpr hlink⟩
  · rw [List.length_append, hlen, hlayer, htop]
    rfl

/-- A gate that shares an operand with the next one is on a lower layer. -/
theorem below_next (h : PassInvariant past layer layers depth) {operands : List Qubit} {i : ℕ}
    {q : Qubit} (hi : Uses past i q) (hq : q ∈ operands) : layer i < layers.top operands + 1 := by
  have h1 := h.le_layers i q hi
  have h2 := layers.le_top hq
  omega

section Step

variable (layer) (next : ℕ) {i : ℕ} (operands : List Qubit)

theorem update_old (hi : i < past.length) : Function.update layer past.length next i = layer i :=
  Function.update_of_ne hi.ne _ _

theorem lt_concat_cases (hi : i < (past ++ [operands]).length) : i < past.length ∨ i = past.length := by
  rw [List.length_append, List.length_singleton] at hi
  omega

end Step

theorem step_layering (h : PassInvariant past layer layers depth) (operands : List Qubit) :
    IsLayering (past ++ [operands]) (max depth (layers.top operands + 1))
      (Function.update layer past.length (layers.top operands + 1)) := by
  refine ⟨?_, ?_, ?_⟩
  · intro i hi
    rcases lt_concat_cases operands hi with hlt | rfl
    · rw [update_old layer _ hlt]
      exact h.layering.positive i hlt
    · rw [Function.update_self]
      exact Nat.succ_pos _
  · intro i hi
    rcases lt_concat_cases operands hi with hlt | rfl
    · rw [update_old layer _ hlt]
      exact (h.layering.le_height i hlt).trans (Nat.le_max_left _ _)
    · rw [Function.update_self]
      exact Nat.le_max_right _ _
  · intro i j hij
    rcases linked_concat_cases hij with hpast | ⟨rfl, q, hq, hi⟩
    · have hrise := h.layering.rising i j hpast
      obtain ⟨-, q, hi, hj⟩ := hpast
      rwa [update_old layer _ hi.lt, update_old layer _ hj.lt]
    · rw [update_old layer _ hi.lt, Function.update_self]
      exact h.below_next hi hq

/-- **One gate.** It lands one layer above the highest of its operands. -/
theorem step (h : PassInvariant past layer layers depth) (operands : List Qubit) :
    PassInvariant (past ++ [operands])
      (Function.update layer past.length (layers.top operands + 1))
      (layers.land operands (layers.top operands + 1))
      (max depth (layers.top operands + 1)) := by
  refine ⟨h.step_layering operands, ?_, ?_, ?_, ?_⟩
  · intro i q hi
    rw [Layers.getD_land]
    rcases uses_concat.mp hi with hi | ⟨rfl, hq⟩
    · rw [update_old layer _ hi.lt]
      split
      · rename_i hq
        exact (h.below_next hi hq).le
      · exact h.le_layers i q hi
    · rw [Function.update_self, if_pos hq]
  · intro q
    rw [Layers.getD_land]
    split
    · rename_i hq
      exact .inr ⟨past.length, uses_concat.mpr (.inr ⟨rfl, hq⟩), Function.update_self ..⟩
    · rcases h.layers_attained q with hzero | ⟨i, hi, hlayer⟩
      · exact .inl hzero
      · exact .inr ⟨i, uses_concat.mpr (.inl hi), (update_old layer _ hi.lt).trans hlayer⟩
  · intro i hi
    rcases lt_concat_cases operands hi with hlt | rfl
    · obtain ⟨earlier, hchain, hlen⟩ := h.chains i hlt
      exact ⟨earlier, hchain.concat, by rw [hlen, update_old layer _ hlt]⟩
    · obtain ⟨earlier, hchain, hlen⟩ := h.chain_to_next operands
      exact ⟨earlier, hchain, by rw [hlen, Function.update_self]⟩
  · right
    have hself : past.length < (past ++ [operands]).length := by simp
    rcases Nat.le_total depth (layers.top operands + 1) with hle | hle
    · exact ⟨past.length, hself, by rw [Function.update_self, Nat.max_eq_right hle]⟩
    · -- the depth so far is at least one, so it is attained
      rcases h.depth_attained with hzero | ⟨i, hi, hlayer⟩
      · omega
      · exact ⟨i, hi.trans hself, by rw [update_old layer _ hi, hlayer, Nat.max_eq_left hle]⟩

/-- **All gates.** The pass ends with the depth of all of them. -/
theorem run : ∀ (rest : List (List Qubit)) {past : List (List Qubit)} {layer : ℕ → ℕ}
    {layers : Layers} {depth : ℕ}, PassInvariant past layer layers depth →
    ∃ layer' layers', PassInvariant (past ++ rest) layer' layers' (depthFrom layers depth rest)
  | [], past, layer, layers, depth, h => ⟨layer, layers, by rwa [List.append_nil]⟩
  | operands :: rest, past, layer, layers, depth, h => by
    obtain ⟨layer', layers', hend⟩ := run rest (h.step operands)
    rw [List.append_assoc, List.singleton_append] at hend
    exact ⟨layer', layers', hend⟩

end PassInvariant

/-- The pass finds a layering as high as the depth, and a chain as long. -/
theorem depthOf_spec (lists : List (List Qubit)) :
    (∃ layer, IsLayering lists (depthOf lists) layer) ∧
      ∃ positions, IsGateChain lists positions ∧ positions.length = depthOf lists := by
  obtain ⟨layer, layers, h⟩ := PassInvariant.start.run lists
  rw [List.nil_append] at h
  refine ⟨⟨layer, h.layering⟩, ?_⟩
  rcases h.depth_attained with hzero | ⟨i, hi, hlayer⟩
  · exact ⟨[], ⟨by simp, List.isChain_nil⟩, hzero.symm⟩
  · obtain ⟨earlier, hchain, hlen⟩ := h.chains i hi
    exact ⟨earlier ++ [i], hchain, hlen.trans hlayer⟩

section Bounds

variable {lists lists' : List (List Qubit)}

/-- The depth is no less than the length of a chain. -/
theorem IsGateChain.length_le_depthOf {positions : List ℕ} (h : IsGateChain lists positions) :
    positions.length ≤ depthOf lists := by
  obtain ⟨⟨layer, hlayering⟩, -⟩ := depthOf_spec lists
  exact h.length_le hlayering

/-- The depth is no more than the height of a layering. -/
theorem IsLayering.depthOf_le {height : ℕ} {layer : ℕ → ℕ} (h : IsLayering lists height layer) :
    depthOf lists ≤ height := by
  obtain ⟨-, positions, hchain, hlen⟩ := depthOf_spec lists
  rw [← hlen]
  exact hchain.length_le h

/-- If linked gates stay linked where `f` takes them, a chain goes with them. -/
theorem IsGateChain.mapped {positions : List ℕ} (h : IsGateChain lists positions) {f : ℕ → ℕ}
    (hinside : ∀ i < lists.length, f i < lists'.length)
    (hlinked : ∀ i j, Linked lists i j → Linked lists' (f i) (f j)) :
    IsGateChain lists' (positions.map f) where
  inside := List.forall_mem_map.mpr fun i hi => hinside i (h.inside i hi)
  linked := (List.isChain_map f).mpr (h.linked.imp fun i j => hlinked i j)

/-- Gates that can be taken to other gates with all their links are no deeper than these. -/
theorem depthOf_le_of_map (f : ℕ → ℕ) (hinside : ∀ i < lists.length, f i < lists'.length)
    (hlinked : ∀ i j, Linked lists i j → Linked lists' (f i) (f j)) :
    depthOf lists ≤ depthOf lists' := by
  obtain ⟨-, positions, hchain, hlen⟩ := depthOf_spec lists
  have hmapped := (hchain.mapped hinside hlinked).length_le_depthOf
  rwa [List.length_map, hlen] at hmapped

/-- The depth is a matter of which gates are linked. -/
theorem depthOf_congr (hlen : lists.length = lists'.length)
    (hlinked : ∀ i j, Linked lists i j ↔ Linked lists' i j) : depthOf lists = depthOf lists' := by
  apply le_antisymm
  · exact depthOf_le_of_map id (fun i hi => hlen ▸ hi) fun i j => (hlinked i j).mp
  · exact depthOf_le_of_map id (fun i hi => hlen ▸ hi) fun i j => (hlinked i j).mpr

end Bounds

/-- **The depth is the critical path.** It is the length of the longest chain of gates, and the
least height of a layering. -/
theorem depth_is_critical_path {γ R : Type} [QuantumGate γ R] (c : Circuit γ) :
    IsGreatest {k | ∃ positions, IsGateChain (c.gates.map QuantumGate.operands) positions ∧
      positions.length = k} c.depth ∧
    IsLeast {height | ∃ layer, IsLayering (c.gates.map QuantumGate.operands) height layer}
      c.depth := by
  obtain ⟨⟨layer, hlayering⟩, positions, hchain, hlen⟩ :=
    depthOf_spec (c.gates.map QuantumGate.operands)
  refine ⟨⟨⟨positions, hchain, hlen⟩, ?_⟩, ⟨⟨layer, hlayering⟩, ?_⟩⟩
  · rintro k ⟨others, hothers, rfl⟩
    exact hothers.length_le hlayering
  · rintro height ⟨other, hother⟩
    rw [Circuit.depth, ← hlen]
    exact hchain.length_le hother

end GateCircuit
