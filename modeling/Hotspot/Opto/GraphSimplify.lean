-- SUMMARY: Simplify takes every live range out of the graph, each with its degree.
import Hotspot.Base.Elimination
import Hotspot.Opto.Chaitin

/-!
# Simplify

What is left of the graph is that without the live ranges on the simplified list, and the degree of
a live range is the sum over the neighbors it has left. A live range on a low degree list can not
become just low again, so each is pulled from the high degree list at most once.
-/

namespace Hotspot.Chaitin

open List

variable {cfg : Config}

/-! ## Live ranges that are the same but for degree and bias -/

/-- What the passes do not change before a live range gets its color. -/
structure LRG.Same (a b : LRG) : Prop where
  alive : a.alive = b.alive
  mustSpill : a.mustSpill = b.mustSpill
  fatProj : a.fatProj = b.fatProj
  numRegs : a.numRegs = b.numRegs
  mask : a.mask = b.mask
  maskSize : a.maskSize = b.maskSize

theorem LRG.Same.refl (a : LRG) : a.Same a := ⟨rfl, rfl, rfl, rfl, rfl, rfl⟩

theorem LRG.Same.trans {a b c : LRG} (h : a.Same b) (h' : b.Same c) : a.Same c :=
  ⟨h.alive.trans h'.alive, h.mustSpill.trans h'.mustSpill, h.fatProj.trans h'.fatProj,
    h.numRegs.trans h'.numRegs,
    h.mask.trans h'.mask, h.maskSize.trans h'.maskSize⟩

theorem LRG.computeDegree_comm (a b : LRG) : a.computeDegree b = b.computeDegree a := by
  unfold computeDegree
  rw [Bool.or_comm, Nat.mul_comm, Nat.max_comm]

theorem LRG.computeDegree_congr {a a' b b' : LRG} (hfat : a.fatProj = a'.fatProj)
    (hregs : a.numRegs = a'.numRegs)
    (hfat' : b.fatProj = b'.fatProj) (hregs' : b.numRegs = b'.numRegs) :
      a.computeDegree b = a'.computeDegree b' := by
  unfold computeDegree
  rw [hfat, hregs, hfat', hregs']

theorem LRG.computeDegree_pos {a b : LRG} (ha : 0 < a.numRegs) (hb : 0 < b.numRegs) :
    0 < a.computeDegree b := by
  unfold computeDegree
  split
  · exact Nat.mul_pos ha hb
  · omega

namespace Phase

variable {g : Graph cfg} {s : Phase} {gone : List Nat} {x : Nat}

@[simp] theorem mem_neighbors {a n : Nat} :
    n ∈ s.neighbors cfg a ↔ n < cfg.maxlrg ∧ s.adjs a n = true := by
  simp [neighbors]

variable (cfg) in
theorem nodup_neighbors (s : Phase) (a : Nat) : (s.neighbors cfg a).Nodup := nodup_range.filter _

/-! ## Taking out one live range -/

/-- The graph without the live ranges `gone`. -/
structure Without (g : Graph cfg) (gone : List Nat) (s : Phase) : Prop where
  same : ∀ i, (s.lrgs i).Same (g.lrgs i)
  edges : Eliminated g.adjs s.adjs gone
  yanked : ∀ i, s.yanked i = decide (i ∈ gone)
  degree : ∀ i < cfg.maxlrg, (s.lrgs i).effDegree = s.effectiveDegree cfg i

/-- Only the degrees of the neighbors change. -/
theorem effectiveDegree_removeNode (h : Without g gone s) (hx : x ∉ gone) (i : Nat) :
    (s.removeNode x).effectiveDegree cfg i +
    (if s.adjs x i then (s.lrgs x).computeDegree (s.lrgs i) else 0) =
      s.effectiveDegree cfg i := by
  have hdegree : ∀ n, ((s.removeNode x).lrgs i).computeDegree ((s.removeNode x).lrgs n) =
      (s.lrgs i).computeDegree (s.lrgs n) := by
    intro n
    unfold removeNode
    dsimp only
    apply LRG.computeDegree_congr <;> split <;> rfl
  unfold effectiveDegree
  simp only [hdegree]
  by_cases hadj : s.adjs x i = true
  · have hback := h.edges.symm g.symm hx hadj
    have hlt := (g.bounds x i (h.edges.edge hadj)).2
    have herase : (s.removeNode x).neighbors cfg i = (s.neighbors cfg i).erase x := by
      rw [(nodup_neighbors cfg s i).erase_eq_filter]
      unfold neighbors removeNode
      dsimp only
      rw [filter_filter]
      apply filter_congr
      intro j _
      rw [hadj, Bool.and_true, Bool.and_comm]
      rfl
    rw [herase, if_pos hadj, LRG.computeDegree_comm (s.lrgs x), Nat.add_comm]
    exact sum_map_erase (fun n => (s.lrgs i).computeDegree (s.lrgs n))
      (mem_neighbors.mpr ⟨hlt, hback⟩)
  · have hkeep : (s.removeNode x).neighbors cfg i = s.neighbors cfg i := by
      unfold neighbors removeNode
      dsimp only
      apply filter_congr
      intro j _
      rw [(Bool.not_eq_true _).mp hadj, Bool.and_false, Bool.not_false, Bool.and_true]
    rw [hkeep, if_neg hadj, Nat.add_zero]

theorem Without.removeNode (h : Without g gone s) (hx : x ∉ gone) :
    Without g (x :: gone) (s.removeNode x) := by
  refine ⟨fun i => ?_, h.edges.remove g.symm g.irrefl hx, fun i => ?_, fun i hi => ?_⟩
  · have hsame := h.same i
    unfold Phase.removeNode
    dsimp only
    split
    · exact ⟨hsame.alive, hsame.mustSpill, hsame.fatProj, hsame.numRegs, hsame.mask, hsame.maskSize⟩
    · exact hsame
  · unfold Phase.removeNode
    dsimp only
    rw [Function.update_apply, h.yanked]
    split <;> simp [*]
  · have heff := effectiveDegree_removeNode h hx i
    have hdeg := h.degree i hi
    unfold Phase.removeNode at heff ⊢
    dsimp only at heff ⊢
    split at heff
    next hadj =>
      rw [if_pos hadj, hdeg, ← heff]
      push_cast
      omega
    next hadj =>
      rw [if_neg hadj, hdeg, ← heff]
      rfl

theorem Without.congr {s' : Phase} (h : Without g gone s) (hadjs : s'.adjs = s.adjs)
    (hyanked : s'.yanked = s.yanked)
    (hlrgs : ∀ i, (s'.lrgs i).Same (s.lrgs i) ∧ (s'.lrgs i).effDegree = (s.lrgs i).effDegree) :
      Without g gone s' := by
  refine ⟨fun i => (hlrgs i).1.trans (h.same i), hadjs ▸ h.edges, fun i => hyanked ▸ h.yanked i,
    fun i hi => ?_⟩
  rw [(hlrgs i).2, h.degree i hi]
  unfold effectiveDegree neighbors
  rw [hadjs]
  congr 3
  funext n
  exact LRG.computeDegree_congr (hlrgs i).1.fatProj.symm (hlrgs i).1.numRegs.symm
    (hlrgs n).1.fatProj.symm
    (hlrgs n).1.numRegs.symm

theorem markRisk_lrgs (s : Phase) (x i : Nat) :
    ∃ bias, (s.markRisk x).lrgs i = { s.lrgs i with riskBias := bias } := by
  unfold markRisk
  split
  · dsimp only
    split
    · exact ⟨_, rfl⟩
    · exact ⟨_, rfl⟩
  · exact ⟨_, rfl⟩

theorem markRisk_eq (s : Phase) (x : Nat) :
    s.markRisk x = { s with lrgs := (s.markRisk x).lrgs } := by
  unfold markRisk
  split <;> rfl

theorem Without.markRisk (h : Without g gone s) (x : Nat) : Without g gone (s.markRisk x) := by
  refine h.congr (by rw [markRisk_eq]) (by rw [markRisk_eq]) fun i => ?_
  obtain ⟨bias, heq⟩ := markRisk_lrgs s x i
  rw [heq]
  exact ⟨⟨rfl, rfl, rfl, rfl, rfl, rfl⟩, rfl⟩

/-! ## The worklists -/

/-- A live range that can be taken out right away. -/
def Ready (lrg : LRG) : Prop := lrg.loDegree = true ∨ lrg.alive = false ∨ lrg.mustSpill = true

/-- The state between two rounds. A live range that was jammed on the low degree list is alone
there. -/
structure Simplifying (g : Graph cfg) (s : Phase) : Prop extends Without g s.simplified s where
  perm : (s.loDegree ++ s.loStkDegree ++ s.hiDegree ++ s.simplified).Perm
    (List.range' 1 (cfg.maxlrg - 1))
  low : ∀ i ∈ s.loDegree ++ s.loStkDegree, Ready (s.lrgs i) ∨ s.loDegree = [i] ∧ s.loStkDegree = []

/-- The state in a round, when `x` has been pulled from its list. -/
structure Pulled (g : Graph cfg) (s : Phase) (x : Nat) : Prop extends Without g s.simplified s where
  perm : (x :: (s.loDegree ++ s.loStkDegree ++ s.hiDegree ++ s.simplified)).Perm
    (List.range' 1 (cfg.maxlrg - 1))
  low : ∀ i ∈ s.loDegree ++ s.loStkDegree, Ready (s.lrgs i)

/-- Rounds that are left: a live range of high degree may need two. -/
def rounds (s : Phase) : Nat := s.loDegree.length + s.loStkDegree.length + 2 * s.hiDegree.length

/-- The neighbors that have just become of low degree move from one list to the other. -/
theorem foldlM_visitNeighbor {ns : List Nat} (hnodup : ns.Nodup)
    (h : ∀ n ∈ ns, (s.lrgs n).justLoDegree = true → (s.lrgs n).mustSpill = false → n ∈ s.hiDegree) :
    ∃ lo hi, ns.foldlM visitNeighbor s = some { s with loDegree := lo, hiDegree := hi } ∧
      (lo ++ hi).Perm (s.loDegree ++ s.hiDegree) ∧
      lo.length + 2 * hi.length ≤ s.loDegree.length + 2 * s.hiDegree.length ∧
      ∀ i ∈ lo, i ∈ s.loDegree ∨ (s.lrgs i).loDegree = true := by
  induction ns generalizing s with
  | nil => exact ⟨_, _, rfl, .refl _, le_rfl, fun i hi => .inl hi⟩
  | cons n ns ih =>
    obtain ⟨hn, hnodup⟩ := nodup_cons.mp hnodup
    rw [foldlM_cons]
    unfold visitNeighbor
    by_cases hjust : ((s.lrgs n).justLoDegree && !(s.lrgs n).mustSpill) = true
    · rw [if_pos hjust]
      rw [Bool.and_eq_true, Bool.not_eq_true'] at hjust
      have hmem := h n (mem_cons_self ..) hjust.1 hjust.2
      have hnext :=
        ih (s := { s with hiDegree := s.hiDegree.erase n, loDegree := n :: s.loDegree }) hnodup
        fun n' hn' hjust' hspill' =>
          (mem_erase_of_ne (by rintro rfl; exact hn hn')).mpr
            (h n' (mem_cons_of_mem _ hn') hjust' hspill')
      obtain ⟨lo, hi, heq, hperm, hlen, hlow⟩ := hnext
      have herase := perm_cons_erase hmem
      have hlength := herase.length_eq
      refine ⟨lo, hi, ?_, ?_, ?_, fun i hi' => ?_⟩
      · rw [pullHigh, if_pos hmem]
        exact heq
      · refine hperm.trans ?_
        exact perm_middle.symm.trans ((perm_append_left_iff _).mpr herase.symm)
      · rw [length_cons] at hlength
        simp only [length_cons] at hlen
        omega
      · rcases hlow i hi' with hold | hnew
        · rcases mem_cons.mp hold with rfl | hold
          · refine .inr (decide_eq_true ?_)
            exact (of_decide_eq_true hjust.1).le
          · exact .inl hold
        · exact .inr hnew
    · rw [if_neg hjust]
      exact ih hnodup fun n' hn' => h n' (mem_cons_of_mem _ hn')

/-- Each live range is in one list. -/
theorem Pulled.mem_lists (h : Pulled g s x) {i : Nat} (hpos : 0 < i) (hlt : i < cfg.maxlrg) :
    i = x ∨ i ∈ s.loDegree ++ s.loStkDegree ∨ i ∈ s.hiDegree ∨ i ∈ s.simplified := by
  have hmem := h.perm.mem_iff.mpr (mem_range'_1.mpr ⟨hpos, show i < 1 + (cfg.maxlrg - 1) by omega⟩)
  simpa [or_assoc] using hmem

theorem Pulled.not_mem_simplified (h : Pulled g s x) : x ∉ s.simplified := by
  have hnodup := (nodup_cons.mp (h.perm.nodup_iff.mpr nodup_range')).1
  exact fun hmem => hnodup (mem_append_right _ hmem)

/-- The degree of a neighbor falls. -/
theorem removeNode_lrgs (s : Phase) (x i : Nat) : ∃ d : Nat, (s.removeNode x).lrgs i =
    { s.lrgs i with effDegree := (s.lrgs i).effDegree - d } ∧
      (s.adjs x i = true → d = (s.lrgs x).computeDegree (s.lrgs i)) := by
  unfold removeNode
  dsimp only
  split
  next hadj => exact ⟨_, rfl, fun _ => rfl⟩
  next hadj => exact ⟨0, by simp, fun h => absurd h hadj⟩

theorem Ready.of_le {lrg : LRG} (h : Ready lrg) (d : Nat) :
    Ready { lrg with effDegree := lrg.effDegree - d } := by
  rcases h with hlow | hdead | hspill
  · refine .inl (decide_eq_true ?_)
    have hle : lrg.effDegree ≤ lrg.degreesOfFreedom := of_decide_eq_true hlow
    show lrg.effDegree - d ≤ lrg.degreesOfFreedom
    omega
  · exact .inr (.inl hdead)
  · exact .inr (.inr hspill)

/-- The live range `x` has been taken out, but its neighbors have not been visited. -/
theorem Pulled.lrgs_removeNode (s : Phase) (x i : Nat) : ∃ (bias d : Nat),
    (({ s with simplified := x :: s.simplified }.markRisk x).removeNode x).lrgs i =
      { s.lrgs i with riskBias := bias, effDegree := (s.lrgs i).effDegree - d } ∧
    (s.adjs x i = true → 0 < (s.lrgs x).numRegs → 0 < (s.lrgs i).numRegs → 0 < d) := by
  obtain ⟨t, ht⟩ : ∃ t, { s with simplified := x :: s.simplified }.markRisk x = t := ⟨_, rfl⟩
  have hlrgs : ∀ i, ∃ bias, t.lrgs i = { s.lrgs i with riskBias := bias } :=
    fun i => ht ▸ markRisk_lrgs _ x i
  have hadjs : t.adjs = s.adjs := by rw [← ht, markRisk_eq]
  obtain ⟨d, hd, hdegree⟩ := removeNode_lrgs t x i
  obtain ⟨bias, hi⟩ := hlrgs i
  obtain ⟨bias', hx⟩ := hlrgs x
  rw [ht, hd, hi]
  refine ⟨bias, d, rfl, fun hadj hpos hpos' => ?_⟩
  rw [hdegree (hadjs ▸ hadj), hi, hx]
  exact LRG.computeDegree_pos hpos hpos'

/-- A neighbor that has just become of low degree was on the high degree list. -/
theorem Pulled.mem_hiDegree (h : Pulled g s x) {n : Nat} (hadj : s.adjs x n = true) {u : Phase}
    (hu : ({ s with simplified := x :: s.simplified }.markRisk x).removeNode x = u)
    (hjust : (u.lrgs n).justLoDegree = true) (hspill : (u.lrgs n).mustSpill = false) :
      n ∈ s.hiDegree := by
  have hedge := h.edges.edge hadj
  have hback := g.symm x n hedge
  obtain ⟨hpos, hlt⟩ := g.bounds n x hback
  obtain ⟨hpos', hlt'⟩ := g.bounds x n hedge
  obtain ⟨bias, d, heq, hd⟩ := Pulled.lrgs_removeNode s x n
  rw [hu] at heq
  have hregs : ∀ {i}, 0 < i → i < cfg.maxlrg → (g.lrgs i).alive = true →
      0 < (s.lrgs i).numRegs := by
    intro i h₁ h₂ halive
    rw [(h.same i).numRegs]
    exact (g.wellformed i h₁ h₂ halive).numRegs_pos
  have hdpos := hd hadj (hregs hpos' hlt' (g.alive x n hedge)) (hregs hpos hlt (g.alive n x hback))
  rw [heq] at hjust hspill
  rcases h.mem_lists hpos hlt with rfl | hlow | hhigh | hgone
  · rw [g.irrefl] at hedge
    cases hedge
  · rcases h.low n hlow with hdeg | hdead | hmust
    · have hle : (s.lrgs n).effDegree ≤ (s.lrgs n).degreesOfFreedom := of_decide_eq_true hdeg
      have heq : (s.lrgs n).effDegree - d = (s.lrgs n).degreesOfFreedom := of_decide_eq_true hjust
      omega
    · rw [(h.same n).alive, g.alive n x hback] at hdead
      cases hdead
    · rw [show (s.lrgs n).mustSpill = false from hspill] at hmust
      cases hmust
  · exact hhigh
  · exact absurd hgone (h.edges.not_mem h.not_mem_simplified hadj)

/-- A round: the live range is taken out, and its neighbors find their lists. -/
theorem Pulled.simplifyOne (h : Pulled g s x) :
    ∃ s', s.simplifyOne cfg x = some s' ∧ Simplifying g s' ∧ s'.rounds ≤ s.rounds := by
  obtain ⟨u, hu⟩ : ∃ u, ({ s with simplified := x :: s.simplified }.markRisk x).removeNode x = u :=
    ⟨_, rfl⟩
  have hwithout : Without g (x :: s.simplified) u := by
    have hstart : Without g s.simplified { s with simplified := x :: s.simplified } :=
      h.toWithout.congr rfl rfl fun i => ⟨.refl _, rfl⟩
    rw [← hu]
    exact (hstart.markRisk x).removeNode h.not_mem_simplified
  have hlists : u.loDegree = s.loDegree ∧ u.loStkDegree = s.loStkDegree ∧ u.hiDegree = s.hiDegree ∧
      u.simplified = x :: s.simplified := by
    rw [← hu, markRisk_eq]
    exact ⟨rfl, rfl, rfl, rfl⟩
  have hadjs : ∀ n, u.adjs x n = true → s.adjs x n = true := by
    rw [← hu, markRisk_eq]
    intro n hn
    exact (Bool.and_eq_true _ _ ▸ hn).1
  have hvisit := foldlM_visitNeighbor (nodup_neighbors cfg u x) fun n hn hjust hspill =>
    hlists.2.2.1 ▸ h.mem_hiDegree (hadjs n (mem_neighbors.mp hn).2) hu hjust hspill
  obtain ⟨lo, hi, heq, hperm, hlen, hlow⟩ := hvisit
  have hready : ∀ i ∈ s.loDegree ++ s.loStkDegree, Ready (u.lrgs i) := by
    intro i hi
    obtain ⟨bias, d, hlrg, -⟩ := Pulled.lrgs_removeNode s x i
    rw [← hu, hlrg]
    exact (h.low i hi).of_le d
  rw [hlists.1, hlists.2.2.1] at hperm hlen
  refine ⟨{ u with loDegree := lo, hiDegree := hi }, ?_, ⟨?_, ?_, fun i hi' => .inl ?_⟩, ?_⟩
  · unfold Phase.simplifyOne
    dsimp only
    rw [hu]
    exact heq
  · refine (hlists.2.2.2 ▸ hwithout).congr rfl rfl fun i => ⟨.refl _, rfl⟩
  · refine .trans ?_ h.perm
    rw [perm_iff_count] at hperm ⊢
    intro a
    have hcount := hperm a
    simp only [count_append, count_cons, hlists.2.1, hlists.2.2.2] at hcount ⊢
    omega
  · rcases mem_append.mp hi' with hmem | hmem
    · rcases hlow i hmem with hold | hnew
      · exact hready i (mem_append_left _ (hlists.1 ▸ hold))
      · exact .inl hnew
    · exact hready i (mem_append_right _ (hlists.2.1 ▸ hmem))
  · simp only [rounds, hlists.2.1]
    omega

/-! ## The loop -/

theorem findCheapest_mem (s : Phase) (loScore : Nat) (is : List Nat) :
    s.findCheapest loScore is ∈ loScore :: is := by
  induction is generalizing loScore with
  | nil => exact mem_cons_self ..
  | cons i is ih =>
    unfold findCheapest
    split
    · exact mem_cons_of_mem _ (mem_cons_self ..)
    split
    · exact mem_cons_of_mem _ (ih i)
    · rcases mem_cons.mp (ih loScore) with heq | hmem
      · exact mem_cons.mpr (.inl heq)
      · exact mem_cons_of_mem _ (mem_cons_of_mem _ hmem)

theorem Simplifying.jam (h : Simplifying g s) (hlo : s.loDegree = []) (hstk : s.loStkDegree = [])
    {i : Nat}
    (hi : i ∈ s.hiDegree) : Simplifying g (s.jam i) ∧ (s.jam i).rounds + 1 = s.rounds := by
  have herase := perm_cons_erase hi
  refine ⟨⟨?_, ?_, fun j hj => .inr ?_⟩, ?_⟩
  · refine h.toWithout.congr rfl rfl fun j => ?_
    unfold Phase.jam
    dsimp only
    rw [Function.update_apply]
    split
    next heq =>
      subst heq
      exact ⟨⟨rfl, rfl, rfl, rfl, rfl, rfl⟩, rfl⟩
    · exact ⟨.refl _, rfl⟩
  · refine .trans ?_ h.perm
    rw [perm_iff_count] at herase ⊢
    intro a
    have hcount := herase a
    simp only [Phase.jam, count_append, count_cons, hlo, hstk, count_nil] at hcount ⊢
    omega
  · simp only [Phase.jam, hstk, append_nil, mem_singleton] at hj ⊢
    exact ⟨by rw [hj], trivial⟩
  · have hlen := herase.length_eq
    simp only [Phase.jam, rounds, hlo, hstk, length_cons, length_nil] at hlen ⊢
    omega

/-- Simplify ends, with all lists empty. -/
theorem Simplifying.simplify (h : Simplifying g s) {fuel : Nat} (hfuel : s.rounds < fuel) :
    ∃ s', s.simplify cfg fuel = some s' ∧ Simplifying g s' ∧
      s'.loDegree = [] ∧ s'.loStkDegree = [] ∧ s'.hiDegree = [] := by
  induction fuel generalizing s with
  | zero => omega
  | succ fuel ih =>
    unfold Phase.simplify
    split
    next x rest hlo =>
      have hpulled : Pulled g { s with loDegree := rest } x := by
        refine ⟨h.toWithout.congr rfl rfl fun i => ⟨.refl _, rfl⟩, ?_, fun i hi => ?_⟩
        · have hperm := h.perm
          rw [hlo] at hperm
          exact hperm
        have hmem : i ∈ s.loDegree ++ s.loStkDegree := by
          rw [hlo]
          exact mem_cons_of_mem _ hi
        rcases h.low i hmem with hready | ⟨halone, hstk⟩
        · exact hready
        · -- the live range that was jammed was the only one
          rw [hlo, List.cons.injEq] at halone
          rw [halone.2, hstk] at hi
          cases hi
      obtain ⟨s', heq, hs', hrounds⟩ := hpulled.simplifyOne
      rw [heq]
      refine ih hs' ?_
      simp only [rounds, hlo, length_cons] at hrounds hfuel ⊢
      omega
    next x rest hlo hstk =>
      have hpulled : Pulled g { s with loStkDegree := rest } x := by
        refine ⟨h.toWithout.congr rfl rfl fun i => ⟨.refl _, rfl⟩, ?_, fun i hi => ?_⟩
        · have hperm := h.perm
          rw [hlo, hstk] at hperm
          rw [hlo]
          exact hperm
        · have hmem : i ∈ s.loDegree ++ s.loStkDegree := by
            rw [hlo, hstk]
            rw [hlo] at hi
            exact mem_cons_of_mem _ hi
          rcases h.low i hmem with hready | ⟨halone, -⟩
          · exact hready
          · rw [hlo] at halone
            cases halone
      obtain ⟨s', heq, hs', hrounds⟩ := hpulled.simplifyOne
      rw [heq]
      refine ih hs' ?_
      simp only [rounds, hstk, length_cons] at hrounds hfuel ⊢
      omega
    next hlo hstk hhi => exact ⟨s, rfl, h, hlo, hstk, hhi⟩
    next hi rest hlo hstk hhi =>
      have hmem : s.findCheapest hi (hi :: rest) ∈ s.hiDegree := by
        rw [hhi]
        rcases mem_cons.mp (s.findCheapest_mem hi (hi :: rest)) with heq | hmem
        · exact mem_cons.mpr (.inl heq)
        · exact hmem
      obtain ⟨hjam, hrounds⟩ := h.jam hlo hstk hmem
      exact ih hjam (by omega)

/-! ## The lists at the start -/

end Phase

end Hotspot.Chaitin
