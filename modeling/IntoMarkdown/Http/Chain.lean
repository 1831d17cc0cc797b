import IntoMarkdown.Http.Body

/-! # The chain of chunks

However the bytes are pushed, the chain holds them in their order, and the memory it
takes depends on their number alone. -/

namespace IntoMarkdown.Http
open Lib

/-- The nodes that this many bytes take. -/
def nodesFor (length : Nat) : Nat := (length + (ioChunkBytes - 1)) / ioChunkBytes

@[simp] theorem nodesFor_zero : nodesFor 0 = 0 := rfl

theorem nodesFor_mono {m n : Nat} (h : m ≤ n) : nodesFor m ≤ nodesFor n :=
  Nat.div_le_div_right (Nat.add_le_add_right h _)

/-- A node is opened for the bytes of one node, or for what is left of them. -/
theorem nodesFor_drop {length : Nat} (h : 0 < length) :
    nodesFor length = nodesFor (length - ioChunkBytes) + 1 := by
  unfold nodesFor ioChunkBytes
  omega

namespace ChunkChain

/-- The bytes of the nodes, the node filled first coming last. -/
def content : List ChunkNode → Bytes
  | [] => []
  | node :: nodes => content nodes ++ node.bytes

def Full (nodes : List ChunkNode) : Prop := ∀ node ∈ nodes, node.bytes.length = ioChunkBytes

/-- Only the node filled last may have room. -/
def Packed : List ChunkNode → Prop
  | [] => True
  | node :: nodes => node.bytes ≠ [] ∧ Full nodes

theorem Full.packed {nodes : List ChunkNode} (h : Full nodes) : Packed nodes := by
  cases nodes with
  | nil => trivial
  | cons node nodes =>
    refine ⟨fun hnil => ?_, fun other hother => h other (List.mem_cons_of_mem _ hother)⟩
    have hlength := h node List.mem_cons_self
    rw [hnil] at hlength
    cases hlength

theorem Full.length_content {nodes : List ChunkNode} (h : Full nodes) :
    (content nodes).length = nodes.length * ioChunkBytes := by
  induction nodes with
  | nil => exact (Nat.zero_mul _).symm
  | cons node nodes ih =>
    rw [content, List.length_append, List.length_cons, h node List.mem_cons_self, Nat.succ_mul,
      ih fun other hother => h other (List.mem_cons_of_mem _ hother)]

theorem Full.nodesFor_add {nodes : List ChunkNode} (h : Full nodes) (n : Nat) :
    nodesFor ((content nodes).length + n) = nodes.length + nodesFor n := by
  rw [h.length_content]
  unfold nodesFor ioChunkBytes
  omega

theorem Packed.length_eq {nodes : List ChunkNode} (h : Packed nodes) :
    nodes.length = nodesFor (content nodes).length := by
  cases nodes with
  | nil => rfl
  | cons node nodes =>
    have hpos := List.length_pos_iff.mpr h.1
    have hfits := node.fits
    have hone : nodesFor node.bytes.length = 1 := by
      unfold nodesFor ioChunkBytes at *
      omega
    rw [content, List.length_append, h.2.nodesFor_add, hone, List.length_cons]

section
variable (nodeBytes : Nat)

/-- What the loop over parts makes of full nodes. -/
structure Pushed (nodes : List ChunkNode) (reservedBytes : Nat) (memory : Reservation)
    (bytes : Bytes) (r : List ChunkNode × Nat × Reservation) : Prop where
  content : content r.1 = content nodes ++ bytes
  packed : Packed r.1
  reserved : r.2.1 = reservedBytes + nodesFor bytes.length * nodeBytes
  held : r.2.2.held = memory.held + nodesFor bytes.length * nodeBytes
  budget : r.2.2.budget = memory.budget

theorem pushParts_nil (nodes : List ChunkNode) (reservedBytes : Nat) (memory : Reservation) :
    pushParts nodeBytes [] nodes reservedBytes memory = .ok (nodes, reservedBytes, memory) := by
  rw [pushParts]
  rfl

theorem pushParts_spec {bytes : Bytes} {nodes : List ChunkNode} (hfull : Full nodes)
    (reservedBytes : Nat) (memory : Reservation) :
    if memory.held + nodesFor bytes.length * nodeBytes ≤ memory.budget then
      ∃ r, pushParts nodeBytes bytes nodes reservedBytes memory = .ok r ∧
        Pushed nodeBytes nodes reservedBytes memory bytes r
    else pushParts nodeBytes bytes nodes reservedBytes memory = .error .resourceLimit := by
  induction hn : bytes.length using Nat.strong_induction_on
    generalizing bytes nodes reservedBytes memory with
  | _ n ih =>
    subst hn
    by_cases hbytes : bytes = []
    · subst hbytes
      rw [if_pos (by simpa using memory.within)]
      refine ⟨_, pushParts_nil .., ?_⟩
      exact ⟨(List.append_nil _).symm, hfull.packed, by simp, by simp, rfl⟩
    · have hpos := List.length_pos_iff.mpr hbytes
      have hdrop := nodesFor_drop hpos
      rw [← List.length_drop] at hdrop
      rw [pushParts, if_neg hbytes]
      by_cases hgrow : memory.held + nodeBytes ≤ memory.budget
      · rw [show memory.grow nodeBytes = .ok ⟨memory.held + nodeBytes, memory.budget, hgrow⟩ from
          dif_pos hgrow]
        dsimp only
        by_cases hrest : bytes.drop ioChunkBytes = []
        · -- the node just opened takes all that is left
          have hlength := List.drop_eq_nil_iff.mp hrest
          have hone : nodesFor bytes.length = 1 := by rw [hdrop, hrest]; rfl
          rw [hrest, pushParts_nil, if_pos (by rw [hone, Nat.one_mul]; exact hgrow)]
          refine ⟨_, rfl, ?_, ⟨?_, hfull⟩, by simp [hone], by simp [hone], rfl⟩
          · simp only [content, List.take_of_length_le hlength]
          · simpa only [List.take_of_length_le hlength] using hbytes
        · have hlength : ioChunkBytes < bytes.length := by
            rw [List.drop_eq_nil_iff] at hrest
            omega
          have hnew : Full (⟨bytes.take ioChunkBytes, List.length_take_le ..⟩ :: nodes) := by
            intro node hnode
            rcases List.mem_cons.mp hnode with rfl | hnode
            · exact List.length_take_of_le hlength.le
            · exact hfull node hnode
          have hless : (bytes.drop ioChunkBytes).length < bytes.length := by
            rw [List.length_drop]
            unfold ioChunkBytes
            omega
          have hspec := ih _ hless hnew (reservedBytes + nodeBytes)
            ⟨memory.held + nodeBytes, memory.budget, hgrow⟩ rfl
          have hsum : memory.held + nodesFor bytes.length * nodeBytes =
              memory.held + nodeBytes + nodesFor (bytes.drop ioChunkBytes).length * nodeBytes := by
            rw [hdrop, Nat.succ_mul]
            omega
          rw [hsum]
          split at hspec
          · next hfit =>
            rw [if_pos hfit]
            obtain ⟨r, hr, hpushed⟩ := hspec
            refine ⟨r, hr, ?_, hpushed.packed, ?_, hpushed.held.trans hsum.symm, hpushed.budget⟩
            · rw [hpushed.content, content, List.append_assoc, List.take_append_drop]
            · rw [hpushed.reserved, hdrop, Nat.succ_mul]
              omega
          · next hfit =>
            rw [if_neg hfit]
            exact hspec
      · have hle : nodeBytes ≤ nodesFor bytes.length * nodeBytes := by
          rw [hdrop, Nat.succ_mul]
          exact Nat.le_add_left _ _
        rw [show memory.grow nodeBytes = .error .resourceLimit from dif_neg hgrow,
          if_neg (by omega)]

end

/-! ## Pushing -/

theorem coalesce_content (nodes : List ChunkNode) (bytes : Bytes) :
    content (coalesce nodes bytes).1 ++ (coalesce nodes bytes).2 = content nodes ++ bytes := by
  cases nodes with
  | nil => rfl
  | cons node nodes =>
    simp only [coalesce, content, List.append_assoc, List.take_append_drop]

/-- Either everything went into the node filled last, or that node has no room left. -/
theorem coalesce_spec {nodes : List ChunkNode} (h : Packed nodes) (bytes : Bytes) :
    (coalesce nodes bytes).1.length = nodes.length ∧
      (((coalesce nodes bytes).2 = [] ∧ Packed (coalesce nodes bytes).1) ∨
        Full (coalesce nodes bytes).1) := by
  cases nodes with
  | nil => exact ⟨rfl, Or.inr fun _ hnode => by cases hnode⟩
  | cons node nodes =>
    refine ⟨rfl, ?_⟩
    have hfits := node.fits
    rcases Nat.le_total bytes.length (ioChunkBytes - node.bytes.length) with hle | hle
    · refine Or.inl ⟨?_, ?_, h.2⟩
      · simp only [coalesce, Nat.min_eq_left hle, List.drop_length]
      · simp [h.1]
    · refine Or.inr fun other hother => ?_
      rcases List.mem_cons.mp hother with rfl | hother
      · simp only [List.length_append, List.length_take, Nat.min_eq_right hle]
        omega
      · exact h.2 other hother

/-- A chain and the memory it is charged to, beyond `base`. -/
structure Holds (nodeBytes base budget : Nat) (s : ChunkChain × Reservation) (xs : Bytes) :
    Prop where
  content : content s.1.nodes = xs
  packed : Packed s.1.nodes
  len : s.1.len = xs.length
  reserved : s.1.reservedBytes = nodesFor xs.length * nodeBytes
  held : s.2.held = base + nodesFor xs.length * nodeBytes
  budget : s.2.budget = budget
  small : xs.length < usizeBound

/-- A chain may hold this many bytes. -/
def chainFits (nodeBytes base budget length : Nat) : Prop :=
  length < usizeBound ∧ base + nodesFor length * nodeBytes ≤ budget

instance (nodeBytes base budget length : Nat) :
    Decidable (chainFits nodeBytes base budget length) :=
  inferInstanceAs (Decidable (_ ∧ _))

theorem chainFits_mono {nodeBytes base budget m n : Nat} (h : m ≤ n)
    (hn : chainFits nodeBytes base budget n) : chainFits nodeBytes base budget m :=
  ⟨h.trans_lt hn.1,
    (Nat.add_le_add_left (Nat.mul_le_mul_right _ (nodesFor_mono h)) _).trans hn.2⟩

section
variable {nodeBytes base budget : Nat} {s : ChunkChain × Reservation} {xs : Bytes}

theorem holds_empty {memory : Reservation} :
    Holds nodeBytes memory.held memory.budget (.empty, memory) [] :=
  ⟨rfl, trivial, rfl, by simp [empty], by simp, rfl, by decide⟩

theorem Holds.fits (h : Holds nodeBytes base budget s xs) :
    chainFits nodeBytes base budget xs.length := by
  refine ⟨h.small, ?_⟩
  rw [← h.held, ← h.budget]
  exact s.2.within

theorem push_refines (h : Holds nodeBytes base budget s xs) (bytes : Bytes) :
    Refines (Holds nodeBytes base budget) (s.1.push nodeBytes bytes s.2)
      (if chainFits nodeBytes base budget (xs.length + bytes.length) then .ok (xs ++ bytes)
        else .error .resourceLimit) := by
  unfold push
  rw [h.len]
  dsimp only
  by_cases hsmall : usizeBound ≤ xs.length + bytes.length
  · rw [reject_of hsmall, if_neg fun hfits => absurd hfits.1 (by omega)]
    exact .error _
  · rw [reject_of_not hsmall]
    obtain ⟨nodes, remaining, hco⟩ :
        ∃ nodes remaining, coalesce s.1.nodes bytes = (nodes, remaining) := ⟨_, _, rfl⟩
    have hcontent := coalesce_content s.1.nodes bytes
    obtain ⟨hlength, hroom⟩ := coalesce_spec h.packed bytes
    rw [hco] at hcontent hlength hroom
    dsimp only at hcontent hlength hroom
    rw [h.content] at hcontent
    have hold := h.packed.length_eq
    rw [h.content] at hold
    have hmemory := h.held
    have hreserved := h.reserved
    -- the nodes opened are those that the new length takes more
    have hnodes : nodesFor (xs.length + bytes.length) =
        nodesFor xs.length + nodesFor remaining.length := by
      rw [← List.length_append, ← hcontent, List.length_append]
      rcases hroom with ⟨rfl, hpacked⟩ | hfull
      · rw [← hold, ← hlength, hpacked.length_eq]
        rfl
      · rw [hfull.nodesFor_add, ← hold, hlength]
    have hsum : base + nodesFor (xs.length + bytes.length) * nodeBytes =
        s.2.held + nodesFor remaining.length * nodeBytes := by
      rw [hnodes, Nat.add_mul]
      omega
    have hpush : if s.2.held + nodesFor remaining.length * nodeBytes ≤ s.2.budget then
        ∃ r, pushParts nodeBytes remaining nodes s.1.reservedBytes s.2 = .ok r ∧
          Pushed nodeBytes nodes s.1.reservedBytes s.2 remaining r
        else pushParts nodeBytes remaining nodes s.1.reservedBytes s.2 =
          .error .resourceLimit := by
      rcases hroom with ⟨rfl, hpacked⟩ | hfull
      · rw [if_pos (by simpa using s.2.within)]
        refine ⟨_, pushParts_nil .., ?_⟩
        exact ⟨(List.append_nil _).symm, hpacked, by simp, by simp, rfl⟩
      · exact pushParts_spec nodeBytes hfull _ _
    simp only [hco]
    split at hpush
    · next hfit =>
      obtain ⟨r, hr, hpushed⟩ := hpush
      rw [if_pos ⟨by omega, by rw [hsum, ← h.budget]; exact hfit⟩]
      simp only [hr]
      refine .ok ⟨?_, hpushed.packed, by simp, ?_, ?_, ?_, by rw [List.length_append]; omega⟩
      · exact hpushed.content.trans hcontent
      · rw [List.length_append, hnodes, Nat.add_mul, ← hreserved]
        exact hpushed.reserved
      · rw [List.length_append, hsum]
        exact hpushed.held
      · exact hpushed.budget.trans h.budget
    · next hfit =>
      rw [if_neg fun hfits => hfit (by rw [← hsum, h.budget]; exact hfits.2)]
      simp only [hpush]
      exact .error _

end

/-! ## Copying out -/

theorem length_copySlice {output bytes : Bytes} {offset : Nat}
    (h : offset + bytes.length ≤ output.length) :
    (copySlice output offset bytes).length = output.length := by
  simp only [copySlice, List.length_append, List.length_take, List.length_drop]
  omega

theorem copyNodes_content (nodes : List ChunkNode) {output : Bytes}
    (h : (content nodes).length ≤ output.length) :
    copyNodes nodes (content nodes).length output =
      .ok (0, content nodes ++ output.drop (content nodes).length) := by
  induction nodes generalizing output with
  | nil => rfl
  | cons node nodes ih =>
    have hlength : (content (node :: nodes)).length =
        (content nodes).length + node.bytes.length := List.length_append
    have hsub : (content (node :: nodes)).length - node.bytes.length = (content nodes).length := by
      omega
    have hslice : (copySlice output (content nodes).length node.bytes).length = output.length :=
      length_copySlice (by omega)
    rw [copyNodes, if_neg (by omega), hsub, ih (by omega)]
    have hdrop : (copySlice output (content nodes).length node.bytes).drop (content nodes).length =
        node.bytes ++ output.drop ((content nodes).length + node.bytes.length) := by
      rw [copySlice, List.append_assoc]
      exact List.drop_left' (List.length_take_of_le (by omega))
    rw [hdrop, hlength, content, List.append_assoc]

/-- `copy_to` returns the bytes in the order in which they were pushed. -/
theorem copyTo_content {chain : ChunkChain} {output : Bytes}
    (hlen : chain.len = (content chain.nodes).length) (h : output.length = chain.len) :
    chain.copyTo output = .ok (content chain.nodes) := by
  have hcopy : copyNodes chain.nodes (content chain.nodes).length output =
      .ok (0, content chain.nodes ++ output.drop (content chain.nodes).length) :=
    copyNodes_content chain.nodes (by omega)
  rw [← hlen, ← h, List.drop_length, List.append_nil, h] at hcopy
  unfold copyTo
  rw [reject_of_not (by simpa using h)]
  simp only [hcopy]
  rfl

end ChunkChain

end IntoMarkdown.Http
