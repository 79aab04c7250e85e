import Secretov.AtomicWrites

/-! `write_file_atomic` on a path that earlier calls have written: what a crash may
still bring back, while the call runs and when it has ended. -/

namespace Secretov

/-- Where one call stands, as `Solo`, on a path whose earlier contents a crash may
bring back. -/
structure Writing (path contents : Bytes) (content : Option Bytes) (older : Set (Option Bytes))
    (fs : Files) (pc : Pc) (made : Option Nat) : Prop where
  own : OwnInode contents fs made pc
  made_lt : ∀ fd, made = some fd → fd < fs.next
  tmp : pc.holdsTmp = true → fs.names (tmpName path) = made
  name : if pc.renamed then fs.names path = made else OldBinding content made fs (fs.names path)
  past : ∀ b ∈ fs.past path, ∃ c, (c ∈ older ∨ (pc.renamed = true ∧ c = content)) ∧ OldBinding c made fs b
  durable : pc.durable = true → fs.past path = []

section

variable {path contents : Bytes} {content : Option Bytes} {older : Set (Option Bytes)} {fs fs' : Files} {pc : Pc}
  {made : Option Nat}

theorem Writing.start (h : fs.Recalls path content older) :
    Writing path contents content older fs .ensureParentDir none where
  own := rfl
  made_lt fd hfd := by cases hfd
  tmp hheld := by cases hheld
  name := ⟨h.now, fun _ _ => by simp⟩
  past b hb := by
    obtain ⟨c, hc, hstands⟩ := h.past b hb
    exact ⟨c, Or.inl hc, hstands, fun _ _ => by simp⟩
  durable hdurable := by cases hdurable

theorem StepSpec.made_lt {pc' : Pc} (hs : StepSpec path contents made fs pc fs' pc')
    (h : ∀ fd, made = some fd → fd < fs.next) : ∀ fd, (pc.created pc').or made = some fd → fd < fs'.next := by
  intro fd hfd
  rcases hs.made_cases hfd with ⟨-, hmade⟩ | ⟨rfl, hlt⟩
  · exact (h fd hmade).trans_le hs.next_le
  · exact hlt

theorem Writing.step (h : Writing path contents content older fs pc made) (o : Outcome) :
    ∃ made', Writing path contents content older (stepWrite path contents o fs pc).1
      (stepWrite path contents o fs pc).2 made' := by
  have hs := @stepWrite_spec path contents made fs pc o h.own
  refine ⟨_, hs.own, hs.made_lt h.made_lt, ?_, ?_, ?_, ?_⟩
  · intro hheld
    rcases hs.source hheld with ⟨hheld', hc, hname⟩ | ⟨fd, hc⟩
    · rw [hc, Option.none_or, hname, h.tmp hheld']
    · rw [hc, Option.some_or, (hs.created fd hc).2.2]
  · rcases hs.target with ⟨hrenamed, hname, -⟩ | ⟨rfl, hpc, i, hr⟩
    · rw [hrenamed, hname]
      have hn := h.name
      split_ifs at hn ⊢ with hpc
      · rw [Pc.created_eq_none _ (by rintro rfl; cases hpc), Option.none_or, hn]
      · exact hn.step hs List.mem_cons_self
    · have hmade := h.tmp rfl
      rw [hr.source] at hmade
      simp [hpc, Pc.renamed, Pc.created, hr.target, hmade]
  · intro b hb
    rcases hs.target with ⟨hrenamed, -, hpast | hpast⟩ | ⟨rfl, hpc, i, hr⟩
    · rw [hpast] at hb
      obtain ⟨c, hc, hold⟩ := h.past b hb
      rw [hrenamed]
      exact ⟨c, hc, hold.step hs (List.mem_cons_of_mem _ hb)⟩
    · rw [hpast] at hb
      cases hb
    -- the rename: what the path held until now joins what a crash may bring back
    · rw [hr.past] at hb
      have hmem : b ∈ fs.names path :: fs.past path := hb
      have hrenamed : (stepWrite path contents o fs .rename).2.renamed = true := by
        rw [hpc]
        rfl
      rcases List.mem_cons.mp hb with rfl | hb
      · exact ⟨content, Or.inr ⟨hrenamed, rfl⟩, OldBinding.step hs hmem h.name⟩
      · obtain ⟨c, hc, hold⟩ := h.past b hb
        exact ⟨c, hc.imp_right fun hr => absurd hr.1 (by simp [Pc.renamed]), hold.step hs hmem⟩
  · intro hdurable
    rcases hs.durable hdurable with hpast | ⟨hpc, hpast⟩
    · exact hpast
    · rw [hpast, h.durable hpc]

theorem Writing.run (h : Writing path contents content older fs pc made) (outcomes : List Outcome) :
    ∃ made', Writing path contents content older (runWrite path contents outcomes (fs, pc)).1
      (runWrite path contents outcomes (fs, pc)).2 made' := by
  induction outcomes generalizing fs pc made with
  | nil => exact ⟨made, h⟩
  | cons o more ih =>
    obtain ⟨made', h'⟩ := h.step o
    exact ih h'

theorem Writing.recalls (h : Writing path contents content older fs pc made) :
    if pc.renamed then fs.Recalls path (some contents) (if pc.durable then ∅ else insert content older)
    else fs.Recalls path content older := by
  have hn := h.name
  have hpast := h.past
  cases hrenamed : pc.renamed with
  | false =>
    rw [hrenamed] at hn
    refine ⟨hn.1, fun b hb => ?_⟩
    obtain ⟨c, hc, hold⟩ := hpast b hb
    rw [hrenamed] at hc
    exact ⟨c, hc.resolve_right (by simp), hold.1⟩
  | true =>
    obtain ⟨fd, hmade, hholds⟩ := h.own.holds hrenamed
    rw [hrenamed, if_pos rfl, hmade] at hn
    refine ⟨by rw [hn]; exact ⟨contents, rfl, hholds⟩, fun b hb => ?_⟩
    cases hdurable : pc.durable with
    | true =>
      rw [h.durable hdurable] at hb
      cases hb
    | false =>
      obtain ⟨c, hc, hold⟩ := hpast b hb
      refine ⟨c, ?_, hold.1⟩
      rcases hc with hc | ⟨-, rfl⟩
      · exact Set.mem_insert_of_mem _ hc
      · exact Set.mem_insert _ _

/-- One call, from any state of the path: it ends with the old content there, and
nothing more to bring back, or with the new one, and then the old one may come
back unless the directory was synced. -/
theorem runWrite_recalls (h : fs.Recalls path content older) {outcomes : List Outcome} {pc : Pc}
    (hrun : runWrite path contents outcomes (fs, .ensureParentDir) = (fs', pc)) :
    if pc.renamed then fs'.Recalls path (some contents) (if pc.durable then ∅ else insert content older)
    else fs'.Recalls path content older := by
  obtain ⟨made, hwriting⟩ := (@Writing.start _ contents _ _ _ h).run outcomes
  rw [hrun] at hwriting
  exact hwriting.recalls

end

end Secretov
