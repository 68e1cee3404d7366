import ImagineOS.Dfs.Files
import ImagineOS.FirstFit

/-!
# DFS: room for a file

`write_file` allocates run by run, each run from the lowest free sector on, and stores the node
after each. Whether it gets all the sectors it asks for can be said beforehand: there must be that
many free sectors in the data area, and the lowest ones of them must not open more extents than the
node has left. If there is room for one sector but not for all of them, some have been given to the
file when the allocation fails.
-/

namespace ImagineOS.Dfs

open BlockProgram Fallible List

/-! ### The lowest free sector -/

/-- A free sector of the data area. -/
def Vol.Free (L : Layout) (v : Vol) (lba : ℕ) : Prop := L.InData lba ∧ v.used lba = false

/-- Where the last extent of a node ends. -/
def Node.tail (node : Node) : Option ℕ :=
  node.extents.getLast?.map fun e => e.startLba + e.sectorCount

/-- There is room for `k` more sectors of a file. -/
def Vol.Room (L : Layout) (v : Vol) (node : Node) (k : ℕ) : Prop :=
  FirstFit.Room (v.Free L) node.tail k (maxExtents - node.extents.length)

section Scan

variable {L : Layout} {v : Vol} {requested : ℕ} {run : FreeRun}

/-- A scan finds the first run. -/
theorem scan_first {n lba : ℕ} {sofar : Option (FreeRun × ℕ)}
    (h : v.scan L requested n lba sofar = .ok run) :
    (∀ r first, sofar = some (r, first) → run.start = r.start) ∧
      (sofar = none → lba ≤ run.start ∧ ∀ a, lba ≤ a → a < run.start → v.used a = true) := by
  induction n generalizing lba sofar with
  | zero =>
    match sofar, h with
    | some (r, first), h =>
      obtain rfl : r = run := Except.ok.inj h
      exact ⟨by rintro _ _ ⟨⟩; rfl, by simp⟩
  | succ n ih =>
    rw [Vol.scan] at h
    cases sofar with
    | none =>
      refine ⟨by simp, fun _ => ?_⟩
      simp only [scanStep] at h
      split_ifs at h with hused hone
      · obtain ⟨hle, hall⟩ := (ih h).2 rfl
        refine ⟨by omega, fun a ha hlt => ?_⟩
        rcases eq_or_ne a lba with rfl | hne
        · exact hused
        · exact hall a (by omega) hlt
      · obtain rfl := Except.ok.inj h
        exact ⟨le_rfl, fun a ha hlt => absurd hlt (Nat.not_lt.mpr ha)⟩
      · have hstart : run.start = lba := (ih h).1 _ _ rfl
        exact ⟨hstart.ge, fun a ha hlt => absurd hlt (by omega)⟩
    | some rf =>
      obtain ⟨r, first⟩ := rf
      refine ⟨?_, by simp⟩
      rintro _ _ ⟨⟩
      simp only [scanStep] at h
      split_ifs at h with hused hspan hreq
      · rw [← Except.ok.inj h]
      · rw [← Except.ok.inj h]
      · rw [← Except.ok.inj h]
      · have hstart := (ih h).1 _ _ rfl
        exact hstart

theorem scan_error {n lba : ℕ} {sofar : Option (FreeRun × ℕ)} {e : DfsError}
    (h : v.scan L requested n lba sofar = .error e) :
    sofar = none ∧ ∀ a, lba ≤ a → a < lba + n → v.used a = true := by
  induction n generalizing lba sofar with
  | zero =>
    match sofar, h with
    | none, _ => exact ⟨rfl, fun a ha hlt => by omega⟩
  | succ n ih =>
    rw [Vol.scan] at h
    cases sofar with
    | none =>
      refine ⟨rfl, fun a ha hlt => ?_⟩
      simp only [scanStep] at h
      split_ifs at h with hused hone
      · rcases eq_or_ne a lba with rfl | hne
        · exact hused
        · exact (ih h).2 a (by omega) (by omega)
      · cases (ih h).1
    | some rf =>
      obtain ⟨r, first⟩ := rf
      simp only [scanStep] at h
      split_ifs at h
      cases (ih h).1

theorem freeRun_first (h : v.freeRun L requested = .ok run) : ∀ a < run.start, ¬ v.Free L a :=
  fun a ha hfree => by
    have := ((scan_first h).2 rfl).2 a hfree.1.1 ha
    rw [hfree.2] at this
    cases this

theorem freeRun_error {e : DfsError} (h : v.freeRun L requested = .error e) (a : ℕ) :
    ¬ v.Free L a := by
  obtain ⟨-, -, -, -, -, -, hde, -⟩ := L.offsets
  intro hfree
  have := (scan_error h).2 a hfree.1.1 (by have := hfree.1.2; omega)
  rw [hfree.2] at this
  cases this

end Scan

/-! ### Extents -/

section Extents

variable {node node' : Node} {start count : ℕ}

/-- **A run lengthens the last extent** if it begins where that ends, and otherwise it needs an
extent of its own. -/
theorem addExtent_eq (hlaid : node.Laid)
    (hends : ∀ e ∈ node.extents, e.startLba + e.sectorCount < 2 ^ 64)
    (hstart : start + count < 2 ^ 64) (hcount : allocated node.extents + count < 2 ^ 32) :
    (∃ node', addExtent node start (allocated node.extents % 2 ^ 32) count = .ok node' ∧
      node'.tail = some (start + count) ∧ node'.extents.length =
        if node.tail = some start then node.extents.length else node.extents.length + 1) ∨
    (∃ e, addExtent node start (allocated node.extents % 2 ^ 32) count = .error e) ∧
      node.tail ≠ some start ∧ maxExtents ≤ node.extents.length := by
  have hpush : node.tail ≠ some start →
      (∃ node', pushExtent node start (allocated node.extents % 2 ^ 32) count = .ok node' ∧
        node'.tail = some (start + count) ∧ node'.extents.length =
          if node.tail = some start then node.extents.length else node.extents.length + 1) ∨
      (∃ e, pushExtent node start (allocated node.extents % 2 ^ 32) count = .error e) ∧
        node.tail ≠ some start ∧ maxExtents ≤ node.extents.length := by
    intro ht
    rw [pushExtent]
    split
    · refine Or.inl ⟨_, rfl, ?_, ?_⟩
      · rw [Node.tail, List.getLast?_concat, Option.map_some, Extent.ofNat]
        simp only
        rw [Nat.mod_eq_of_lt (by omega), Nat.mod_eq_of_lt (by omega)]
      · rw [length_append, length_singleton]
    · rename_i hle
      exact Or.inr ⟨⟨_, rfl⟩, ht, Nat.le_of_not_lt hle⟩
  unfold addExtent
  split
  · rename_i hnone
    exact hpush (by rw [Node.tail, hnone]; simp)
  · rename_i last hlast
    have hmem : last ∈ node.extents := mem_of_getLast? hlast
    have htail : node.tail = some (last.startLba + last.sectorCount) := by
      rw [Node.tail, hlast, Option.map_some]
    -- The last extent of a chain ends where the chain ends.
    have hlogical : last.logicalStart + last.sectorCount = allocated node.extents := by
      have hne : node.extents ≠ [] := ne_nil_of_mem hmem
      have hsplit : node.extents = node.extents.dropLast ++ [last] := by
        rw [List.getLast?_eq_some_getLast hne] at hlast
        rw [← Option.some.inj hlast, dropLast_append_getLast]
      have hchain := hlaid.chain
      rw [hsplit, chain_append] at hchain
      rw [hsplit, allocated_append, allocated_cons, allocated_nil, hchain.2.1]
      omega
    by_cases hjoin : node.tail = some start
    · have hjoin' : last.startLba + last.sectorCount = start :=
        Option.some.inj (htail.symm.trans hjoin)
      rw [if_pos ⟨by rw [Nat.mod_eq_of_lt (hends last hmem), hjoin'], by rw [hlogical]⟩,
        dif_pos (by omega)]
      refine Or.inl ⟨_, rfl, ?_, ?_⟩
      · rw [Node.tail, List.getLast?_concat, Option.map_some]
        simp only [Option.some.injEq]
        omega
      · have hpos := length_pos_of_mem hmem
        rw [if_pos hjoin]
        simp only [length_append, length_dropLast, length_singleton]
        omega
    · rw [if_neg]
      · exact hpush hjoin
      · rintro ⟨h, -⟩
        rw [Nat.mod_eq_of_lt (hends last hmem)] at h
        exact hjoin (by rw [htail, h])

end Extents

/-! ### Allocating -/

section Allocate

variable {L : Layout} {leaked : ℕ → Prop} {d : ℕ → Sector} {v : Vol} {i required requested : ℕ}
  {run : FreeRun}

/-- A file and a free run fit the data area. -/
theorem allocated_add_lt (hacc : v.Accounted L leaked) (hi : i < inodeCount)
    (hrun : run.Fits L v requested) : allocated (v.nodes i).extents + run.length < L.sectors := by
  obtain ⟨-, -, -, -, hdl, he, hde, hend64⟩ := L.offsets
  have hlen := hrun.length_lt
  have hle := hrun.le_endLba
  have hpos := run.pos
  have hcovers : ∀ lba, (Extent.ofNat run.start 0 run.length).Covers lba ↔
      run.start ≤ lba ∧ lba < run.start + run.length := fun lba =>
    covers_ofNat (by omega) (by omega)
  have hown : ∀ e ∈ (v.nodes i).extents, e.Apart (.ofNat run.start 0 run.length) := by
    rintro e he lba ⟨hce, hcr⟩
    obtain ⟨h₁, h₂⟩ := (hcovers lba).mp hcr
    have := (hacc.used_iff lba (hrun.inData h₁ h₂).inPartition).mpr
      (Or.inr (Or.inl ⟨i, hi, e, he, hce⟩))
    rw [hrun.free lba h₁ h₂] at this
    cases this
  have hle : allocated ((v.nodes i).extents ++ [.ofNat run.start 0 run.length]) ≤
      L.endLba - L.dataLba := allocated_le
    (pairwise_append.mpr ⟨hacc.apart i hi, pairwise_singleton _ _, by simpa using hown⟩)
    fun e he lba hc => by
      rcases mem_append.mp he with he | he
      · exact hacc.inData i hi lba ⟨e, he, hc⟩
      · rw [mem_singleton.mp he, hcovers] at hc
        exact hrun.inData hc.1 hc.2
  rw [allocated_append, allocated_cons, allocated_nil, Nat.add_zero] at hle
  have hcount : (Extent.ofNat run.start 0 run.length).sectorCount = run.length :=
    Nat.mod_eq_of_lt (by omega)
  omega

theorem free_mark {a n : ℕ} {node : Node} : Vol.Free L ((v.mark a (a + n) true).setNode i node) =
    FirstFit.Rest (v.Free L) a n := by
  funext lba
  refine propext ?_
  simp only [Vol.Free, FirstFit.Rest, Vol.setNode_used, Vol.mark_used]
  split
  · rename_i h
    simp [h]
  · rename_i h
    simp [h]

/-- What an allocation for node `i` does. -/
structure Allocates (L : Layout) (required i : ℕ) (d : ℕ → Sector) (v : Vol)
    (r : Except DfsError Node) (d' : ℕ → Sector) (v' : Vol) : Prop
    extends Grown L required v v' i where
  attributes : (v'.nodes i).attributes = (v.nodes i).attributes
  used : ∀ a, v.used a = true → v'.used a = true
  ok : ∀ node, r = .ok node → node = v'.nodes i ∧ required ≤ allocated node.extents ∧
    v.Room L (v.nodes i) (required - allocated (v.nodes i).extents)
  /-- It fails at the first run, or after it. -/
  error : ∀ e, r = .error e →
    ¬ v.Room L (v.nodes i) (required - allocated (v.nodes i).extents) ∧
    (d' = d ∧ ¬ v.Room L (v.nodes i) 1 ∨
      v.Room L (v.nodes i) 1 ∧ ∃ a, L.InPartition a ∧ v.used a = false ∧ v'.used a = true)

theorem Allocates.refused {e : DfsError} (hlt : allocated (v.nodes i).extents < required)
    (h : ∀ k, 0 < k → ¬ v.Room L (v.nodes i) k) :
    Allocates L required i d v (.error e) d v where
  toGrown := .refl L required v i
  attributes := rfl
  used _ h := h
  ok _ h := by cases h
  error _ _ := ⟨h _ (by omega), Or.inl ⟨rfl, h 1 Nat.one_pos⟩⟩

theorem FreeRun.Fits.free_of (hrun : run.Fits L v requested) :
    ∀ a, run.start ≤ a → a < run.start + run.length → v.Free L a :=
  fun a h₁ h₂ => ⟨hrun.inData h₁ h₂, hrun.free a h₁ h₂⟩

theorem room_one_iff {node : Node} (hrun : run.Fits L v requested)
    (hfirst : ∀ a < run.start, ¬ v.Free L a) :
    v.Room L node 1 ↔ (node.tail ≠ some run.start → 0 < maxExtents - node.extents.length) := by
  have hpos := run.pos
  exact (FirstFit.room_take hfirst (fun a h₁ h₂ => hrun.free_of a h₁ (by omega)) Nat.one_pos
    le_rfl).trans (and_iff_left FirstFit.room_zero)

theorem room_reserve_iff {node node' : Node} (hrun : run.Fits L v requested)
    (hfirst : ∀ a < run.start, ¬ v.Free L a) (htail : node'.tail = some (run.start + run.length))
    (hlength : node'.extents.length =
      if node.tail = some run.start then node.extents.length else node.extents.length + 1) :
    v.Room L node requested ↔ v.Room L node 1 ∧
      ((v.mark run.start (run.start + run.length) true).setNode i node').Room L node'
        (requested - run.length) := by
  rw [room_one_iff hrun hfirst, Vol.Room, Vol.Room,
    FirstFit.room_take hfirst hrun.free_of run.pos hrun.le_requested, free_mark, htail, hlength]
  refine and_congr_right fun _ => ?_
  by_cases ht : node.tail = some run.start
  · rw [if_pos ht, if_pos ht]
  · rw [if_neg ht, if_neg ht, Nat.sub_add_eq]

/-- The first run is given to the file, and the allocation goes on. -/
theorem Allocates.after_reserve {node' : Node} {r : Except DfsError Node} {d₁ d' : ℕ → Sector}
    {v' : Vol} (hrun : run.Fits L v (required - allocated (v.nodes i).extents))
    (hfirst : ∀ a < run.start, ¬ v.Free L a) (htail : node'.tail = some (run.start + run.length))
    (hlength : node'.extents.length = if (v.nodes i).tail = some run.start
      then (v.nodes i).extents.length else (v.nodes i).extents.length + 1)
    (halloc : allocated node'.extents = allocated (v.nodes i).extents + run.length)
    (hattributes : node'.attributes = (v.nodes i).attributes)
    (hgrown : Grown L required v
      ((v.mark run.start (run.start + run.length) true).setNode i node') i)
    (h : Allocates L required i d₁
      ((v.mark run.start (run.start + run.length) true).setNode i node') r d' v') :
    Allocates L required i d v r d' v' := by
  set v₁ := (v.mark run.start (run.start + run.length) true).setNode i node' with hv₁
  have hpos := run.pos
  have hself : v₁.nodes i = node' := Vol.setNode_nodes_self i node'
  have hused : ∀ a, v₁.used a = if run.start ≤ a ∧ a < run.start + run.length then true
      else v.used a := fun a => rfl
  have hroom : v.Room L (v.nodes i) (required - allocated (v.nodes i).extents) ↔
      v.Room L (v.nodes i) 1 ∧
        v₁.Room L (v₁.nodes i) (required - allocated (v₁.nodes i).extents) := by
    rw [hself, halloc, Nat.sub_add_eq]
    exact room_reserve_iff hrun hfirst htail hlength
  have hroom₁ : v.Room L (v.nodes i) 1 := (room_one_iff hrun hfirst).mpr fun ht => by
    rw [if_neg ht] at hlength
    have := node'.extents_le
    omega
  exact { hgrown.trans h.toGrown with
    attributes := by rw [h.attributes, hself, hattributes]
    used := fun a ha => h.used a (by rw [hused, ha, ite_self])
    ok := fun node hr => by
      obtain ⟨h₁, h₂, h₃⟩ := h.ok node hr
      exact ⟨h₁, h₂, hroom.mpr ⟨hroom₁, h₃⟩⟩
    error := fun e hr => ⟨fun hall => (h.error e hr).1 (hroom.mp hall).2,
      Or.inr ⟨hroom₁, run.start, (hrun.inData le_rfl (by omega)).inPartition,
        hrun.free _ le_rfl (by omega), h.used _ (by rw [hused, if_pos ⟨le_rfl, by omega⟩])⟩⟩ }

/-- **An allocation succeeds if and only if there is room**, when the file is laid out in order. -/
theorem wp_allocate_room (hd : Represents L d v) (hacc : v.Accounted L leaked)
    (hi : i < inodeCount) (hkind : (v.nodes i).kind = nodeFile) (hlaid : (v.nodes i).Laid)
    (hnum : Numbered L required) {Q : Except DfsError Node → (ℕ → Sector) → Prop}
    (hQ : ∀ r d' v', Represents L d' v' → v'.Accounted L leaked →
      Allocates L required i d v r d' v' → Q r d') :
    (allocate L i required (v.nodes i) (allocated (v.nodes i).extents)).Wp (contract L) Q d := by
  induction hn : required - allocated (v.nodes i).extents using Nat.strong_induction_on
    generalizing d v Q with
  | _ n ih =>
  subst hn
  rw [allocate]
  by_cases hlt : allocated (v.nodes i).extents < required
  swap
  · rw [dif_neg hlt]
    refine hQ _ d v hd hacc { Grown.refl L required v i with
      attributes := rfl
      used := fun _ h => h
      ok := ?_
      error := fun _ h => by cases h }
    rintro _ ⟨⟩
    rw [Nat.sub_eq_zero_of_le (Nat.le_of_not_lt hlt)]
    exact ⟨rfl, by omega, FirstFit.room_zero⟩
  rw [dif_pos hlt]
  refine wp_bind (wp_findFreeRun hd ?_)
  cases hfound : v.freeRun L (required - allocated (v.nodes i).extents) with
  | error e =>
    refine hQ _ d v hd hacc (.refused hlt fun k hk hroom => ?_)
    obtain ⟨a, ha⟩ := hroom.exists_free hk.ne'
    exact freeRun_error hfound a ha
  | ok run =>
    have hrun := fits_of_freeRun (by omega) hfound
    have hpos := run.pos
    have hle := hrun.le_requested
    obtain ⟨-, -, -, -, -, -, -, hend64⟩ := L.offsets
    have hfirst : ∀ a < run.start, ¬ v.Free L a := freeRun_first hfound
    have hfit : allocated (v.nodes i).extents + run.length < 2 ^ 32 := by
      have := allocated_add_lt hacc hi hrun
      rcases hnum with h | h <;> omega
    rw [thenWp_ok, Nat.mod_eq_of_lt hrun.length_lt]
    refine wp_bind (wp_ofExcept.mpr ?_)
    rcases addExtent_eq hlaid (fun e he => hacc.end_lt hi (hd.decoded hi) he)
      (hrun.le_endLba.trans_lt hend64) hfit with ⟨node', hadd, htail, hlength⟩ |
        ⟨⟨e, hadd⟩, ht, hfull⟩
    swap
    · rw [hadd]
      refine hQ _ d v hd hacc (.refused hlt fun k hk hroom => ?_)
      have := ((FirstFit.room_take hfirst (fun a h₁ h₂ => hrun.free_of a h₁ (by omega)) Nat.one_pos
        hk).mp hroom).1 ht
      omega
    rw [hadd, thenWp_ok]
    rw [← Nat.mod_eq_of_lt hrun.length_lt] at hadd
    obtain ⟨hvalid, hstored, hacc', hgrown, halloc⟩ :=
      grown_reserve hacc (hd.decoded hi) hi hkind hlt hrun hadd
    refine wp_bind (wp_reserveRun hd hrun hi (hd.ne_zero_of_file hkind) hvalid
      (by rw [hstored]; exact hacc'.sound) fun d₁ hd₁ => ?_)
    rw [hstored] at hd₁
    have hattributes : node'.attributes = (v.nodes i).attributes := by
      obtain ⟨-, -, -, hmode, huid, hgid⟩ := addExtent_attributes hadd
      rw [Node.attributes, Node.attributes, hmode, huid, hgid]
    set v₁ := (v.mark run.start (run.start + run.length) true).setNode i node'
    have hself : v₁.nodes i = node' := Vol.setNode_nodes_self i node'
    have hnext := ih (required - allocated (v₁.nodes i).extents) (by rw [hself]; omega) hd₁ hacc'
      (hgrown.kind.trans hkind) (hgrown.laid hnum hlaid).1
      (fun r d' v' h₁ h₂ h₃ => hQ r d' v' h₁ h₂
        (h₃.after_reserve hrun hfirst htail hlength halloc hattributes hgrown)) rfl
    rw [hself, halloc] at hnext
    exact hnext

end Allocate

end ImagineOS.Dfs
