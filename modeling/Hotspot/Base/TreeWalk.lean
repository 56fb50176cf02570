-- SUMMARY: Walks over a forest with a short worklist: runs, invariants, coverage, termination.
import Mathlib

/-!
# Tree walks

A walk looks for a node that a visitor stops at. It works on chains of siblings. The children of
a visited node are one more chain, and if the worklist is full the walk below the node is a
search of its own. The visitor has a state.
-/

namespace Hotspot

open List

/-- `f` returns `a`, with enough fuel. -/
def Returns {α : Type} (f : Nat → Option α) (a : α) : Prop := ∃ n, ∀ fuel ≥ n, f fuel = some a

theorem Returns.unique {α : Type} {f : Nat → Option α} {a b : α} (ha : Returns f a) (hb : Returns f b) : a = b := by
  obtain ⟨n, ha⟩ := ha
  obtain ⟨m, hb⟩ := hb
  exact Option.some.inj ((ha (max n m) (le_max_left n m)).symm.trans (hb (max n m) (le_max_right n m)))

/-- What the visitor makes of a node: the walk ends here, the nodes below are left out, or they
are walked too. -/
inductive Visit where
  | stop
  | skip
  | enter
deriving DecidableEq, Repr

structure TreeWalk (ν σ : Type) where
  children : ν → List ν
  visit : σ → ν → Visit × σ
  /-- The start of a search below a node: a node to stop at, or the chains to work on. -/
  start : σ → ν → (ν ⊕ List (List ν)) × σ
  /-- The size of the worklist. -/
  limit : Nat

namespace TreeWalk

variable {ν σ : Type} (W : TreeWalk ν σ)

/-- The children of a node are a chain, unless there are none. -/
def push (k : ν) (chains : List (List ν)) : List (List ν) :=
  match W.children k with
  | [] => chains
  | c :: cs => (c :: cs) :: chains

/-- The walk along the current chain, then the worklist. -/
def run : Nat → σ → List ν → List (List ν) → Option (Option ν × σ)
  | 0, _, _, _ => none
  | _ + 1, s, [], [] => some (none, s)
  | n + 1, s, [], chain :: chains => run n s chain chains
  | n + 1, s, k :: rest, chains =>
    match W.visit s k with
    | (.stop, s) => some (some k, s)
    | (.skip, s) => run n s rest chains
    | (.enter, s) =>
      if chains.length < W.limit then run n s rest (W.push k chains)
      else
        match W.start s k with
        | (.inl found, s) => some (some found, s)
        | (.inr own, s) =>
          match run n s [] own with
          | none => none
          | some (some found, s) => some (some found, s)
          | some (none, s) => run n s rest chains

/-- The search below a node. -/
def searchBelow (n : Nat) (s : σ) (k : ν) : Option (Option ν × σ) :=
  match W.start s k with
  | (.inl found, s) => some (some found, s)
  | (.inr own, s) => W.run n s [] own

/-- The search at a node and below. -/
def search (n : Nat) (s : σ) (k : ν) : Option (Option ν × σ) :=
  match W.visit s k with
  | (.stop, s) => some (some k, s)
  | (.skip, s) => some (none, s)
  | (.enter, s) => W.searchBelow n s k

/-! ## Runs -/

inductive Runs : σ → List ν → List (List ν) → Option ν → σ → Prop
  | done (s : σ) : Runs s [] [] none s
  | pop {s s' : σ} {chain : List ν} {chains : List (List ν)} {r : Option ν} :
      Runs s chain chains r s' → Runs s [] (chain :: chains) r s'
  | stop {s s' : σ} {k : ν} {rest : List ν} {chains : List (List ν)} :
      W.visit s k = (.stop, s') → Runs s (k :: rest) chains (some k) s'
  | skip {s s₁ s' : σ} {k : ν} {rest : List ν} {chains : List (List ν)} {r : Option ν} :
      W.visit s k = (.skip, s₁) → Runs s₁ rest chains r s' → Runs s (k :: rest) chains r s'
  | push {s s₁ s' : σ} {k : ν} {rest : List ν} {chains : List (List ν)} {r : Option ν} :
      W.visit s k = (.enter, s₁) → chains.length < W.limit → Runs s₁ rest (W.push k chains) r s' →
      Runs s (k :: rest) chains r s'
  | found {s s₁ s' : σ} {k w : ν} {rest : List ν} {chains : List (List ν)} :
      W.visit s k = (.enter, s₁) → ¬ chains.length < W.limit → W.start s₁ k = (.inl w, s') →
      Runs s (k :: rest) chains (some w) s'
  | foundNested {s s₁ s₂ s' : σ} {k w : ν} {rest : List ν} {chains own : List (List ν)} :
      W.visit s k = (.enter, s₁) → ¬ chains.length < W.limit → W.start s₁ k = (.inr own, s₂) →
      Runs s₂ [] own (some w) s' → Runs s (k :: rest) chains (some w) s'
  | nested {s s₁ s₂ s₃ s' : σ} {k : ν} {rest : List ν} {chains own : List (List ν)} {r : Option ν} :
      W.visit s k = (.enter, s₁) → ¬ chains.length < W.limit → W.start s₁ k = (.inr own, s₂) →
      Runs s₂ [] own none s₃ → Runs s₃ rest chains r s' → Runs s (k :: rest) chains r s'

variable {W} {s s' : σ} {cur : List ν} {cs : List (List ν)} {r : Option ν}

theorem runs_of_run {n : Nat} (h : W.run n s cur cs = some (r, s')) : W.Runs s cur cs r s' := by
  induction n generalizing s cur cs r s' with
  | zero => cases h
  | succ n ih =>
    match cur, cs with
    | [], [] =>
      cases h
      exact .done s
    | [], chain :: cs => exact .pop (ih h)
    | k :: rest, cs =>
      simp only [run] at h
      split at h
      · next hvisit =>
        cases h
        exact .stop hvisit
      · next hvisit => exact .skip hvisit (ih h)
      next hvisit =>
      split at h
      · next hlimit => exact .push hvisit hlimit (ih h)
      next hlimit =>
      split at h
      · next hst =>
        cases h
        exact .found hvisit hlimit hst
      next hst =>
      split at h
      · cases h
      · next hbelow =>
        cases h
        exact .foundNested hvisit hlimit hst (ih hbelow)
      · next hbelow => exact .nested hvisit hlimit hst (ih hbelow) (ih h)

theorem Runs.returns (h : W.Runs s cur cs r s') : Returns (W.run · s cur cs) (r, s') := by
  -- a run of one more step, with the fuel of the rest
  have hsucc : ∀ {f : Nat → Option (Option ν × σ)} {a : Option ν × σ} (n : Nat),
      (∀ fuel ≥ n, f (fuel + 1) = some a) → Returns f a := by
    intro f a n hf
    refine ⟨n + 1, fun fuel hfuel => ?_⟩
    obtain ⟨fuel, rfl⟩ := Nat.exists_eq_add_of_le' (show 1 ≤ fuel by omega)
    exact hf fuel (by omega)
  induction h with
  | done s => exact hsucc 0 fun fuel _ => rfl
  | pop _ ih =>
    obtain ⟨n, hn⟩ := ih
    exact hsucc n hn
  | stop hvisit => exact hsucc 0 fun fuel _ => by simp only [run, hvisit]
  | skip hvisit _ ih =>
    obtain ⟨n, hn⟩ := ih
    exact hsucc n fun fuel hfuel => by simp only [run, hvisit, hn fuel hfuel]
  | push hvisit hlimit _ ih =>
    obtain ⟨n, hn⟩ := ih
    exact hsucc n fun fuel hfuel => by simp only [run, hvisit, if_pos hlimit, hn fuel hfuel]
  | found hvisit hlimit hst => exact hsucc 0 fun fuel _ => by simp only [run, hvisit, if_neg hlimit, hst]
  | foundNested hvisit hlimit hst _ ih =>
    obtain ⟨n, hn⟩ := ih
    exact hsucc n fun fuel hfuel => by simp only [run, hvisit, if_neg hlimit, hst, hn fuel hfuel]
  | nested hvisit hlimit hst _ _ ihBelow ih =>
    obtain ⟨n, hn⟩ := ihBelow
    obtain ⟨m, hm⟩ := ih
    refine hsucc (max n m) fun fuel hfuel => ?_
    simp only [run, hvisit, if_neg hlimit, hst, hn fuel ((le_max_left n m).trans hfuel),
      hm fuel ((le_max_right n m).trans hfuel)]

variable {k : ν}

theorem mem_push {chain : List ν} (h : chain ∈ W.push k cs) : chain = W.children k ∨ chain ∈ cs := by
  unfold push at h
  split at h
  · exact .inr h
  · next hchildren =>
    rw [hchildren]
    exact mem_cons.mp h

theorem mem_push_of_mem {c : ν} (h : c ∈ W.children k) : W.children k ∈ W.push k cs := by
  unfold push
  split
  · next hnil =>
    rw [hnil] at h
    cases h
  · next hchildren =>
    rw [hchildren]
    exact mem_cons_self

theorem mem_push_right {chain : List ν} (h : chain ∈ cs) : chain ∈ W.push k cs := by
  unfold push
  split
  · exact h
  · exact mem_cons_of_mem _ h

/-! ## Invariants -/

variable (W) in
/-- The walk stays on the nodes in `R` and the states in `P`. -/
structure Keeps (R : ν → Prop) (P : σ → Prop) : Prop where
  visit : ∀ {s k}, P s → R k → P (W.visit s k).2
  start : ∀ {s k}, P s → R k → P (W.start s k).2
  children : ∀ {s s' k}, P s → R k → W.visit s k = (.enter, s') → ∀ c ∈ W.children k, R c
  chains : ∀ {s s₁ s' k own}, P s → R k → W.visit s k = (.enter, s₁) → W.start s₁ k = (.inr own, s') →
    ∀ chain ∈ own, ∀ c ∈ chain, R c

section Keeps

variable {R : ν → Prop} {P : σ → Prop} (hkeeps : W.Keeps R P)
include hkeeps

theorem Keeps.of_visit {s s' : σ} {k : ν} {v : Visit} (hs : P s) (hk : R k) (h : W.visit s k = (v, s')) : P s' := by
  have hnext := hkeeps.visit hs hk
  rwa [h] at hnext

theorem Keeps.of_start {s s' : σ} {k : ν} {v : ν ⊕ List (List ν)} (hs : P s) (hk : R k)
    (h : W.start s k = (v, s')) : P s' := by
  have hnext := hkeeps.start hs hk
  rwa [h] at hnext

theorem Keeps.mem_push {s s' : σ} {k : ν} (hs : P s) (hk : R k) (h : W.visit s k = (.enter, s'))
    (hcs : ∀ chain ∈ cs, ∀ c ∈ chain, R c) : ∀ chain ∈ W.push k cs, ∀ c ∈ chain, R c := by
  intro chain hchain
  rcases TreeWalk.mem_push hchain with rfl | hchain
  · exact hkeeps.children hs hk h
  · exact hcs chain hchain

/-- A run keeps what its steps keep, and it stops for a reason. -/
theorem Runs.keeps (h : W.Runs s cur cs r s') (hs : P s) (hcur : ∀ k ∈ cur, R k)
    (hcs : ∀ chain ∈ cs, ∀ k ∈ chain, R k) : P s' ∧ ∀ w, r = some w → ∃ s₁, P s₁ ∧
      (R w ∧ W.visit s₁ w = (.stop, s') ∨ ∃ k, R k ∧ W.start s₁ k = (.inl w, s')) := by
  induction h with
  | done s => exact ⟨hs, fun w hw => nomatch hw⟩
  | pop _ ih => exact ih hs (hcs _ mem_cons_self) fun chain hchain => hcs chain (mem_cons_of_mem _ hchain)
  | @stop s s' k rest cs hvisit =>
    have hk := hcur k mem_cons_self
    refine ⟨hkeeps.of_visit hs hk hvisit, fun w hw => ?_⟩
    cases hw
    exact ⟨s, hs, .inl ⟨hk, hvisit⟩⟩
  | skip hvisit _ ih =>
    obtain ⟨hk, hrest⟩ := forall_mem_cons.mp hcur
    exact ih (hkeeps.of_visit hs hk hvisit) hrest hcs
  | push hvisit hlimit _ ih =>
    obtain ⟨hk, hrest⟩ := forall_mem_cons.mp hcur
    exact ih (hkeeps.of_visit hs hk hvisit) hrest (hkeeps.mem_push hs hk hvisit hcs)
  | @found s s₁ s' k w rest cs hvisit hlimit hst =>
    have hk := hcur k mem_cons_self
    have hs₁ := hkeeps.of_visit hs hk hvisit
    refine ⟨hkeeps.of_start hs₁ hk hst, fun w' hw => ?_⟩
    cases hw
    exact ⟨s₁, hs₁, .inr ⟨k, hk, hst⟩⟩
  | @foundNested s s₁ s₂ s' k w rest cs own hvisit hlimit hst _ ih =>
    have hk := hcur k mem_cons_self
    have hs₁ := hkeeps.of_visit hs hk hvisit
    exact ih (hkeeps.of_start hs₁ hk hst) (forall_mem_nil _) (hkeeps.chains hs hk hvisit hst)
  | @nested s s₁ s₂ s₃ s' k rest cs own r hvisit hlimit hst _ _ ihBelow ih =>
    obtain ⟨hk, hrest⟩ := forall_mem_cons.mp hcur
    have hs₁ := hkeeps.of_visit hs hk hvisit
    have hs₃ := ihBelow (hkeeps.of_start hs₁ hk hst) (forall_mem_nil _) (hkeeps.chains hs hk hvisit hst)
    exact ih hs₃.1 hrest hcs

end Keeps

/-! ## Coverage -/

variable (W) in
/-- `D s k` says that the nodes from `k` down are dealt with in the state `s`. The visitor's
state only grows. -/
structure Deals (le : σ → σ → Prop) (D : σ → ν → Prop) : Prop where
  refl : ∀ s, le s s
  trans : ∀ {a b c}, le a b → le b c → le a c
  visit : ∀ s k, le s (W.visit s k).2
  start : ∀ s k, le s (W.start s k).2
  mono : ∀ {s s' k}, le s s' → D s k → D s' k
  skip : ∀ {s s' k}, W.visit s k = (.skip, s') → D s' k
  enter : ∀ {s s₁ s' k}, W.visit s k = (.enter, s₁) → le s₁ s' → (∀ c ∈ W.children k, D s' c) → D s' k
  chains : ∀ {s s' k own}, W.start s k = (.inr own, s') → ∀ c ∈ W.children k, ∃ chain ∈ own, c ∈ chain

section Deals

variable {le : σ → σ → Prop} {D : σ → ν → Prop} (hdeals : W.Deals le D)
include hdeals

theorem Deals.of_visit {s s' : σ} {k : ν} {v : Visit} (h : W.visit s k = (v, s')) : le s s' := by
  have hgrow := hdeals.visit s k
  rwa [h] at hgrow

theorem Deals.of_start {s s' : σ} {k : ν} {v : ν ⊕ List (List ν)} (h : W.start s k = (v, s')) : le s s' := by
  have hgrow := hdeals.start s k
  rwa [h] at hgrow

/-- A run that stops nowhere has dealt with all its nodes. -/
theorem Runs.covers (h : W.Runs s cur cs r s') (hr : r = none) :
    le s s' ∧ (∀ k ∈ cur, D s' k) ∧ ∀ chain ∈ cs, ∀ k ∈ chain, D s' k := by
  induction h with
  | done s => exact ⟨hdeals.refl s, forall_mem_nil _, forall_mem_nil _⟩
  | pop _ ih =>
    obtain ⟨hle, hchain, hcs⟩ := ih hr
    exact ⟨hle, forall_mem_nil _, forall_mem_cons.mpr ⟨hchain, hcs⟩⟩
  | stop _ => cases hr
  | skip hvisit _ ih =>
    obtain ⟨hle, hrest, hcs⟩ := ih hr
    have hk := hdeals.mono hle (hdeals.skip hvisit)
    exact ⟨hdeals.trans (hdeals.of_visit hvisit) hle, forall_mem_cons.mpr ⟨hk, hrest⟩, hcs⟩
  | push hvisit _ _ ih =>
    obtain ⟨hle, hrest, hcs⟩ := ih hr
    have hk := hdeals.enter hvisit hle fun c hc => hcs _ (mem_push_of_mem hc) c hc
    exact ⟨hdeals.trans (hdeals.of_visit hvisit) hle, forall_mem_cons.mpr ⟨hk, hrest⟩,
      fun chain hchain => hcs chain (mem_push_right hchain)⟩
  | found _ _ _ => cases hr
  | foundNested _ _ _ _ _ => cases hr
  | nested hvisit _ hst _ _ ihBelow ih =>
    obtain ⟨hleBelow, -, hbelow⟩ := ihBelow rfl
    obtain ⟨hle, hrest, hcs⟩ := ih hr
    have hgrow := hdeals.trans (hdeals.of_start hst) (hdeals.trans hleBelow hle)
    have hk := hdeals.enter hvisit hgrow fun c hc => by
      obtain ⟨chain, hchain, hmem⟩ := hdeals.chains hst c hc
      exact hdeals.mono hle (hbelow chain hchain c hmem)
    exact ⟨hdeals.trans (hdeals.of_visit hvisit) hgrow, forall_mem_cons.mpr ⟨hk, hrest⟩, hcs⟩

end Deals

/-! ## Termination -/

/-- The work that a chain stands for. -/
def chainWeight (weight : ν → Nat) (chain : List ν) : Nat := 1 + (chain.map weight).sum

theorem exists_runs {wt : ν → Nat} (hchildren : ∀ k, chainWeight wt (W.children k) < wt k)
    (hst : ∀ s k own s', W.start s k = (.inr own, s') → (own.map (chainWeight wt)).sum < wt k)
    (s : σ) (cur : List ν) (cs : List (List ν)) : ∃ r s', W.Runs s cur cs r s' := by
  -- the induction is on the work left in the current chain and the worklist
  induction hn : (cur.map wt).sum + (cs.map (chainWeight wt)).sum using Nat.strong_induction_on
    generalizing s cur cs with
  | _ n ih =>
    subst hn
    match cur, cs with
    | [], [] => exact ⟨none, s, .done s⟩
    | [], chain :: cs =>
      obtain ⟨r, s', h⟩ := ih _ (by simp only [map_cons, sum_cons, chainWeight, map_nil, sum_nil]; omega)
        s chain cs rfl
      exact ⟨r, s', .pop h⟩
    | k :: rest, cs =>
      have hpos := hchildren k
      unfold chainWeight at hpos
      rcases hvisit : W.visit s k with ⟨v, s₁⟩
      cases v with
      | stop => exact ⟨some k, s₁, .stop hvisit⟩
      | skip =>
        obtain ⟨r, s', h⟩ := ih _ (by simp only [map_cons, sum_cons]; omega) s₁ rest cs rfl
        exact ⟨r, s', .skip hvisit h⟩
      | enter =>
        by_cases hlimit : cs.length < W.limit
        · have hpush : ((W.push k cs).map (chainWeight wt)).sum ≤
              1 + ((W.children k).map wt).sum + (cs.map (chainWeight wt)).sum := by
            unfold push
            split
            · omega
            · next hcs => rw [hcs, map_cons, sum_cons, chainWeight]
          obtain ⟨r, s', h⟩ := ih _ (by simp only [map_cons, sum_cons]; omega) s₁ rest (W.push k cs) rfl
          exact ⟨r, s', .push hvisit hlimit h⟩
        · rcases hbegin : W.start s₁ k with ⟨found, s₂⟩
          cases found with
          | inl w => exact ⟨some w, s₂, .found hvisit hlimit hbegin⟩
          | inr own =>
            have hown := hst s₁ k own s₂ hbegin
            obtain ⟨r, s₃, hbelow⟩ := ih _ (by simp only [map_cons, sum_cons, map_nil, sum_nil]; omega)
              s₂ [] own rfl
            cases r with
            | some w => exact ⟨some w, s₃, .foundNested hvisit hlimit hbegin hbelow⟩
            | none =>
              obtain ⟨r, s', h⟩ := ih _ (by simp only [map_cons, sum_cons]; omega) s₃ rest cs rfl
              exact ⟨r, s', .nested hvisit hlimit hbegin hbelow h⟩

/-! ## Searches -/

variable (W) in
/-- The search at `k` and below. -/
inductive Searches (s : σ) (k : ν) : Option ν → σ → Prop
  | stop {s' : σ} : W.visit s k = (.stop, s') → Searches s k (some k) s'
  | skip {s' : σ} : W.visit s k = (.skip, s') → Searches s k none s'
  | found {s₁ s' : σ} {w : ν} : W.visit s k = (.enter, s₁) → W.start s₁ k = (.inl w, s') → Searches s k (some w) s'
  | below {s₁ s₂ s' : σ} {own : List (List ν)} {r : Option ν} : W.visit s k = (.enter, s₁) →
      W.start s₁ k = (.inr own, s₂) → W.Runs s₂ [] own r s' → Searches s k r s'

theorem searches_of_search {n : Nat} (h : W.search n s k = some (r, s')) : W.Searches s k r s' := by
  unfold search searchBelow at h
  split at h
  · next hvisit =>
    cases h
    exact .stop hvisit
  · next hvisit =>
    cases h
    exact .skip hvisit
  next hvisit =>
  split at h
  · next hst =>
    cases h
    exact .found hvisit hst
  · next hst => exact .below hvisit hst (runs_of_run h)

theorem Searches.returns (h : W.Searches s k r s') : Returns (W.search · s k) (r, s') := by
  cases h with
  | stop hvisit => exact ⟨0, fun fuel _ => by simp only [search, hvisit]⟩
  | skip hvisit => exact ⟨0, fun fuel _ => by simp only [search, hvisit]⟩
  | found hvisit hst => exact ⟨0, fun fuel _ => by simp only [search, searchBelow, hvisit, hst]⟩
  | below hvisit hst hruns =>
    obtain ⟨n, hn⟩ := hruns.returns
    exact ⟨n, fun fuel hfuel => by simp only [search, searchBelow, hvisit, hst, hn fuel hfuel]⟩

theorem exists_searches {wt : ν → Nat} (hchildren : ∀ k, chainWeight wt (W.children k) < wt k)
    (hst : ∀ s k own s', W.start s k = (.inr own, s') → (own.map (chainWeight wt)).sum < wt k)
    (s : σ) (k : ν) : ∃ r s', W.Searches s k r s' := by
  rcases hvisit : W.visit s k with ⟨v, s₁⟩
  cases v with
  | stop => exact ⟨some k, s₁, .stop hvisit⟩
  | skip => exact ⟨none, s₁, .skip hvisit⟩
  | enter =>
    rcases hbegin : W.start s₁ k with ⟨found, s₂⟩
    cases found with
    | inl w => exact ⟨some w, s₂, .found hvisit hbegin⟩
    | inr own =>
      obtain ⟨r, s', hruns⟩ := exists_runs hchildren hst s₂ [] own
      exact ⟨r, s', .below hvisit hbegin hruns⟩

end TreeWalk

end Hotspot
