import Mathlib.Data.List.Induction

/-! Directory trees with symbolic links: what a path leads to, and the directories that
a chain of links goes through. -/

namespace LinkTree

inductive Step (N : Type) where
  | here
  | up
  | name (n : N)
deriving DecidableEq

structure Pathname (N : Type) where
  absolute : Bool
  steps : List (Step N)
deriving DecidableEq

/-- Where the path starts from, in a directory. -/
def Pathname.start {N : Type} (p : Pathname N) (dir : List N) : List N := if p.absolute then [] else dir

inductive Node (N D L : Type) where
  | directory (info : D)
  | link (target : Pathname N)
  | leaf (info : L)

/-- The entries by their names from the root. All of them are in directories. -/
structure Entries (N D L : Type) where
  node : List N → Option (Node N D L)
  searchable : List N → Bool
  parent : ∀ dir name, node (dir ++ [name]) ≠ none → ∃ info, node dir = some (.directory info)

inductive Failure where
  | noEntry
  | notDirectory
  | tooManyLinks
  | denied
deriving DecidableEq

namespace Entries

variable {N D L : Type}

section

variable [DecidableEq N]

def lookup (entries : List (List N × Node N D L)) (path : List N) : Option (Node N D L) :=
  (entries.find? (·.1 = path)).map Prod.snd

def holdsEntries : Option (Node N D L) → Bool
  | some (.directory _) => true
  | _ => false

/-- The tree of some entries, the directories of all of which are among them. -/
def ofList (entries : List (List N × Node N D L)) (searchable : List N → Bool)
    (h : ∀ e ∈ entries, e.1 = [] ∨ holdsEntries (lookup entries e.1.dropLast) = true) : Entries N D L where
  node := lookup entries
  searchable := searchable
  parent dir name hnode := by
    obtain ⟨found, hfound⟩ := Option.ne_none_iff_exists'.mp hnode
    obtain ⟨e, he, -⟩ := Option.map_eq_some_iff.mp hfound
    have hpath : e.1 = dir ++ [name] := by simpa using List.find?_some he
    have hparent := h e (List.mem_of_find?_eq_some he)
    rw [hpath, List.dropLast_concat] at hparent
    have hholds := hparent.resolve_left (List.concat_ne_nil name dir)
    cases hdir : lookup entries dir with
    | none => simp [hdir, holdsEntries] at hholds
    | some node =>
      cases node with
      | directory info => exact ⟨info, rfl⟩
      | link target => simp [hdir, holdsEntries] at hholds
      | leaf info => simp [hdir, holdsEntries] at hholds

end

/-- Steps from a directory. What a link leads to is left to `follow`. -/
def walk (t : Entries N D L) (follow : List N → List (Step N) → Except Failure (List N)) :
    List N → List (Step N) → Except Failure (List N)
  | dir, [] => .ok dir
  | dir, .here :: steps => walk t follow dir steps
  | dir, .up :: steps => walk t follow dir.dropLast steps
  | dir, .name x :: steps =>
    if t.searchable dir then
      match t.node (dir ++ [x]) with
      | none => .error .noEntry
      | some (.directory _) => walk t follow (dir ++ [x]) steps
      | some (.leaf _) => if steps.isEmpty then .ok (dir ++ [x]) else .error .notDirectory
      | some (.link target) => follow (target.start dir) (target.steps ++ steps)
    else .error .denied

/-- Every link is followed, as far as the limit goes. -/
def resolve (t : Entries N D L) : Nat → List N → List (Step N) → Except Failure (List N)
  | 0 => t.walk fun _ _ => .error .tooManyLinks
  | limit + 1 => t.walk (t.resolve limit)

/-- What the steps lead to, through at most so many links. -/
inductive Leads (t : Entries N D L) : Nat → List N → List (Step N) → List N → Prop
  | done {limit : Nat} {dir : List N} : Leads t limit dir [] dir
  | here {limit : Nat} {dir goal : List N} {steps : List (Step N)} : Leads t limit dir steps goal →
      Leads t limit dir (.here :: steps) goal
  | up {limit : Nat} {dir goal : List N} {steps : List (Step N)} : Leads t limit dir.dropLast steps goal →
      Leads t limit dir (.up :: steps) goal
  | down {limit : Nat} {dir goal : List N} {x : N} {steps : List (Step N)} {info : D} : t.searchable dir = true →
      t.node (dir ++ [x]) = some (.directory info) → Leads t limit (dir ++ [x]) steps goal →
      Leads t limit dir (.name x :: steps) goal
  | leaf {limit : Nat} {dir : List N} {x : N} {info : L} : t.searchable dir = true →
      t.node (dir ++ [x]) = some (.leaf info) → Leads t limit dir [.name x] (dir ++ [x])
  | follow {limit : Nat} {dir goal : List N} {x : N} {steps : List (Step N)} {target : Pathname N} :
      t.searchable dir = true → t.node (dir ++ [x]) = some (.link target) →
      Leads t limit (target.start dir) (target.steps ++ steps) goal →
      Leads t (limit + 1) dir (.name x :: steps) goal

variable {t : Entries N D L} {limit : Nat} {dir goal : List N} {steps : List (Step N)}

theorem leads_of_walk {follow : List N → List (Step N) → Except Failure (List N)}
    (hfollow : ∀ dir steps x target goal, t.searchable dir = true → t.node (dir ++ [x]) = some (.link target) →
      follow (target.start dir) (target.steps ++ steps) = .ok goal → t.Leads limit dir (.name x :: steps) goal)
    (h : t.walk follow dir steps = .ok goal) : t.Leads limit dir steps goal := by
  induction steps generalizing dir with
  | nil =>
    obtain rfl := Except.ok.inj h
    exact .done
  | cons step steps ih =>
    cases step with
    | here => exact .here (ih h)
    | up => exact .up (ih h)
    | name x =>
      rw [walk] at h
      by_cases hsearch : t.searchable dir = true
      · rw [if_pos hsearch] at h
        cases hnode : t.node (dir ++ [x]) with
        | none => simp [hnode] at h
        | some node =>
          rw [hnode] at h
          cases node with
          | directory info => exact .down hsearch hnode (ih h)
          | link target => exact hfollow dir steps x target goal hsearch hnode h
          | leaf info =>
            cases steps with
            | nil =>
              obtain rfl := Except.ok.inj h
              exact .leaf hsearch hnode
            | cons next steps => cases h
      · rw [if_neg hsearch] at h
        cases h

theorem leads_of_resolve (h : t.resolve limit dir steps = .ok goal) : t.Leads limit dir steps goal := by
  induction limit generalizing dir steps goal with
  | zero => exact leads_of_walk (fun _ _ _ _ _ _ _ h => by cases h) h
  | succ limit ih => exact leads_of_walk (fun _ _ _ _ _ hsearch hnode h => .follow hsearch hnode (ih h)) h

/-- A path leads to one place, however many links may be followed. -/
theorem Leads.unique (h : t.Leads limit dir steps goal) {limit' : Nat} {goal' : List N}
    (h' : t.Leads limit' dir steps goal') : goal = goal' := by
  induction h generalizing limit' with
  | done =>
    cases h'
    rfl
  | here _ ih =>
    cases h' with
    | here h' => exact ih h'
  | up _ ih =>
    cases h' with
    | up h' => exact ih h'
  | down _ hnode _ ih =>
    cases h' with
    | down _ _ h' => exact ih h'
    | leaf _ hother => simp [hnode] at hother
    | follow _ hother _ => simp [hnode] at hother
  | leaf _ hnode =>
    cases h' with
    | down _ hother _ => simp [hnode] at hother
    | leaf _ _ => rfl
    | follow _ hother _ => simp [hnode] at hother
  | follow _ hnode _ ih =>
    cases h' with
    | down _ hother _ => simp [hnode] at hother
    | leaf _ hother => simp [hnode] at hother
    | follow _ hother h' =>
      obtain rfl := Node.link.inj (Option.some.inj (hnode.symm.trans hother))
      exact ih h'

/-- The first steps lead to a directory, and the rest goes on from there. -/
theorem Leads.append {first rest : List (Step N)} (h : t.Leads limit dir (first ++ rest) goal) :
    ∃ mid limit', t.Leads limit dir first mid ∧ t.Leads limit' mid rest goal := by
  generalize hsteps : first ++ rest = steps at h
  induction h generalizing first with
  | done =>
    obtain ⟨rfl, rfl⟩ := List.append_eq_nil_iff.mp hsteps
    exact ⟨_, limit, .done, .done⟩
  | here h ih =>
    cases first with
    | nil =>
      obtain rfl : rest = _ := hsteps
      exact ⟨_, _, .done, .here h⟩
    | cons step first =>
      obtain ⟨rfl, hrest⟩ := List.cons.inj hsteps
      obtain ⟨mid, limit', hfirst, hgoal⟩ := ih hrest
      exact ⟨mid, limit', .here hfirst, hgoal⟩
  | up h ih =>
    cases first with
    | nil =>
      obtain rfl : rest = _ := hsteps
      exact ⟨_, _, .done, .up h⟩
    | cons step first =>
      obtain ⟨rfl, hrest⟩ := List.cons.inj hsteps
      obtain ⟨mid, limit', hfirst, hgoal⟩ := ih hrest
      exact ⟨mid, limit', .up hfirst, hgoal⟩
  | down hsearch hnode h ih =>
    cases first with
    | nil =>
      obtain rfl : rest = _ := hsteps
      exact ⟨_, _, .done, .down hsearch hnode h⟩
    | cons step first =>
      obtain ⟨rfl, hrest⟩ := List.cons.inj hsteps
      obtain ⟨mid, limit', hfirst, hgoal⟩ := ih hrest
      exact ⟨mid, limit', .down hsearch hnode hfirst, hgoal⟩
  | leaf hsearch hnode =>
    cases first with
    | nil =>
      obtain rfl : rest = _ := hsteps
      exact ⟨_, limit, .done, .leaf hsearch hnode⟩
    | cons step first =>
      obtain ⟨rfl, hrest⟩ := List.cons.inj hsteps
      obtain ⟨rfl, rfl⟩ := List.append_eq_nil_iff.mp hrest
      exact ⟨_, limit, .leaf hsearch hnode, .done⟩
  | @follow limit dir goal x steps target hsearch hnode h ih =>
    cases first with
    | nil =>
      obtain rfl : rest = _ := hsteps
      exact ⟨_, _, .done, .follow hsearch hnode h⟩
    | cons step first =>
      obtain ⟨rfl, rfl⟩ := List.cons.inj hsteps
      obtain ⟨mid, limit', hfirst, hgoal⟩ := ih (List.append_assoc target.steps first rest)
      exact ⟨mid, limit', .follow hsearch hnode hfirst, hgoal⟩

theorem directory_of_prefix {first rest : List N} (hrest : rest ≠ []) (h : t.node (first ++ rest) ≠ none) :
    ∃ info, t.node first = some (.directory info) := by
  induction rest using List.reverseRecOn with
  | nil => exact absurd rfl hrest
  | append_singleton rest x ih =>
    rw [← List.append_assoc] at h
    obtain ⟨info, hinfo⟩ := t.parent _ _ h
    cases rest with
    | nil =>
      rw [List.append_nil] at hinfo
      exact ⟨info, hinfo⟩
    | cons y rest => exact ih (List.cons_ne_nil y rest) (by rw [hinfo]; exact Option.some_ne_none _)

/-- Names from the root to a directory lead to it. -/
theorem Leads.names {names : List N} {info : D} (h : t.Leads limit dir (names.map .name) goal)
    (hnode : t.node (dir ++ names) = some (.directory info)) : goal = dir ++ names := by
  induction names generalizing dir limit with
  | nil =>
    cases h
    exact (List.append_nil _).symm
  | cons x names ih =>
    have hsplit : dir ++ x :: names = dir ++ [x] ++ names := by simp
    rw [hsplit] at hnode ⊢
    have hfirst : ∃ info, t.node (dir ++ [x]) = some (.directory info) := by
      by_cases hnames : names = []
      · rw [hnames, List.append_nil] at hnode
        exact ⟨info, hnode⟩
      · exact directory_of_prefix hnames (by rw [hnode]; exact Option.some_ne_none _)
    obtain ⟨info', hfirst⟩ := hfirst
    obtain ⟨mid, limit', hmid, hgoal⟩ := @Leads.append _ _ _ t _ _ _ [.name x] _ h
    cases hmid with
    | down _ _ hdone =>
      cases hdone
      exact ih hgoal hnode
    | leaf _ hother => simp [hfirst] at hother
    | follow _ hother _ => simp [hfirst] at hother

/-- Every directory above the last of the names may be searched. -/
def Reaches (t : Entries N D L) (dir names : List N) : Prop :=
  ∀ above x, above ++ [x] <+: names → t.searchable (dir ++ above) = true

theorem reaches_nil : t.Reaches dir [] := fun above x h => absurd (List.prefix_nil.mp h)
    (List.concat_ne_nil x above)

theorem reaches_cons {x : N} {names : List N} :
    t.Reaches dir (x :: names) ↔ t.searchable dir = true ∧ t.Reaches (dir ++ [x]) names := by
  constructor
  · intro h
    refine ⟨?_, fun above y hy => ?_⟩
    · have hfirst := h [] x ⟨names, rfl⟩
      rwa [List.append_nil] at hfirst
    · have hnext := h (x :: above) y (List.cons_prefix_cons.mpr ⟨rfl, hy⟩)
      rwa [List.append_assoc]
  · rintro ⟨hfirst, hrest⟩ above y hy
    cases above with
    | nil => rwa [List.append_nil]
    | cons z above =>
      rw [List.cons_append] at hy
      obtain ⟨rfl, hrests⟩ := List.cons_prefix_cons.mp hy
      have hnext := hrest above y hrests
      rwa [List.append_assoc] at hnext

theorem reaches_concat {names : List N} {x : N} :
    t.Reaches dir (names ++ [x]) ↔ t.Reaches dir names ∧ t.searchable (dir ++ names) = true := by
  constructor
  · exact fun h => ⟨fun above y hy => h above y (hy.trans (List.prefix_append _ _)),
      h names x (List.prefix_refl _)⟩
  · rintro ⟨h, hlast⟩ above y hy
    rcases List.prefix_concat_iff.mp hy with hsame | hy
    · obtain ⟨rfl, -⟩ := List.append_inj' hsame rfl
      exact hlast
    · exact h above y hy

/-- No link is met on the way to a directory by its names. -/
theorem resolve_names_eq_ok {names : List N} {info : D} (hnode : t.node (dir ++ names) = some (.directory info)) :
    t.resolve limit dir (names.map .name) = .ok goal ↔ goal = dir ++ names ∧ t.Reaches dir names := by
  have hwalk : ∀ follow, t.walk follow dir (names.map .name) = .ok goal ↔
      goal = dir ++ names ∧ t.Reaches dir names := by
    intro follow
    induction names generalizing dir with
    | nil =>
      rw [List.map_nil, walk, Except.ok.injEq, List.append_nil]
      exact ⟨fun h => ⟨h.symm, reaches_nil⟩, fun h => h.1.symm⟩
    | cons x names ih =>
      have hsplit : dir ++ x :: names = dir ++ [x] ++ names := by simp
      rw [hsplit] at hnode ⊢
      have hfirst : ∃ info, t.node (dir ++ [x]) = some (.directory info) := by
        by_cases hnames : names = []
        · rw [hnames, List.append_nil] at hnode
          exact ⟨info, hnode⟩
        · exact directory_of_prefix hnames (by rw [hnode]; exact Option.some_ne_none _)
      obtain ⟨info', hfirst⟩ := hfirst
      rw [List.map_cons, walk, hfirst, reaches_cons]
      by_cases hsearch : t.searchable dir = true
      · rw [if_pos hsearch]
        exact (ih hnode).trans (and_congr_right fun _ => (and_iff_right hsearch).symm)
      · rw [if_neg hsearch]
        simp [hsearch]
  cases limit <;> exact hwalk _

/-! Chains of links. -/

/-- From a name in a directory to a leaf: the directories that hold the name, each further
link, and the leaf. -/
inductive Chain (t : Entries N D L) : List N → N → List (List N) → L → Prop
  | leaf {dir : List N} {x : N} {info : L} : t.node (dir ++ [x]) = some (.leaf info) → Chain t dir x [dir] info
  | link {limit : Nat} {dir dir' : List N} {x y : N} {target : Pathname N} {first : List (Step N)}
      {dirs : List (List N)} {info : L} : t.node (dir ++ [x]) = some (.link target) →
      target.steps = first ++ [.name y] →
      t.Leads limit (target.start dir) first dir' → Chain t dir' y dirs info → Chain t dir x (dir :: dirs) info

variable {x : N} {dirs : List (List N)} {info : L}

theorem Chain.head (h : t.Chain dir x dirs info) : dirs = dir :: dirs.tail := by
  cases h <;> rfl

/-- The chain's name leads to the leaf, in the last of the directories. -/
theorem Chain.leads (h : t.Chain dir x dirs info) (hgoal : t.Leads limit dir [.name x] goal) :
    ∃ last y, dirs.getLast? = some last ∧ goal = last ++ [y] ∧ t.node goal = some (.leaf info) := by
  induction h generalizing limit with
  | @leaf dir x info hnode =>
    cases hgoal with
    | down _ hother _ => simp [hnode] at hother
    | leaf _ _ => exact ⟨dir, x, rfl, rfl, hnode⟩
    | follow _ hother _ => simp [hnode] at hother
  | @link _ dir dir' x y target first dirs info hnode htarget hfirst hchain ih =>
    cases hgoal with
    | down _ hother _ => simp [hnode] at hother
    | leaf _ hother => simp [hnode] at hother
    | follow _ hother hgoal =>
      obtain rfl := Node.link.inj (Option.some.inj (hnode.symm.trans hother))
      rw [List.append_nil, htarget] at hgoal
      obtain ⟨mid, limit', hmid, hgoal⟩ := hgoal.append
      obtain rfl := hmid.unique hfirst
      obtain ⟨last, z, hlast, hrest⟩ := ih hgoal
      refine ⟨last, z, ?_, hrest⟩
      rw [hchain.head] at hlast ⊢
      exact hlast

theorem directory_root {info : D} (hdir : t.node dir = some (.directory info)) :
    ∃ info, t.node [] = some (.directory info) := by
  by_cases hnil : dir = []
  · exact ⟨info, hnil ▸ hdir⟩
  · have hsome : t.node ([] ++ dir) ≠ none := by
      rw [List.nil_append, hdir]
      exact Option.some_ne_none _
    exact directory_of_prefix hnil hsome

theorem directory_dropLast {info : D} (hdir : t.node dir = some (.directory info)) :
    ∃ info, t.node dir.dropLast = some (.directory info) := by
  cases dir using List.reverseRecOn with
  | nil => exact ⟨info, hdir⟩
  | append_singleton above x =>
    rw [List.dropLast_concat]
    exact t.parent above x (by rw [hdir]; exact Option.some_ne_none _)

theorem directory_start {target : Pathname N} {info : D} (hdir : t.node dir = some (.directory info)) :
    ∃ info, t.node (target.start dir) = some (.directory info) := by
  rw [Pathname.start]
  split_ifs
  · exact directory_root hdir
  · exact ⟨info, hdir⟩

/-- From a directory, a path leads to a directory or a leaf. -/
theorem Leads.found {info : D} (h : t.Leads limit dir steps goal) (hdir : t.node dir = some (.directory info)) :
    (∃ info, t.node goal = some (.directory info)) ∨ ∃ info, t.node goal = some (.leaf info) := by
  induction h generalizing info with
  | done => exact .inl ⟨info, hdir⟩
  | here _ ih => exact ih hdir
  | up _ ih =>
    obtain ⟨info', hup⟩ := directory_dropLast hdir
    exact ih hup
  | down _ hnode _ ih => exact ih hnode
  | leaf _ hnode => exact .inr ⟨_, hnode⟩
  | @follow _ dir _ _ _ target _ _ _ ih =>
    obtain ⟨info', hstart⟩ := @directory_start _ _ _ t dir target info hdir
    exact ih hstart

/-- A path that leads to a leaf ends in a name, from which a chain of links does. -/
theorem Leads.chain {info : D} {file : L} (h : t.Leads limit dir steps goal)
    (hdir : t.node dir = some (.directory info)) (hgoal : t.node goal = some (.leaf file)) :
    ∃ first y mid dirs limit', steps = first ++ [.name y] ∧ t.Leads limit' dir first mid ∧
      t.Chain mid y dirs file := by
  induction h generalizing info with
  | done => simp [hdir] at hgoal
  | here _ ih =>
    obtain ⟨first, y, mid, dirs, limit', rfl, hfirst, hchain⟩ := ih hdir hgoal
    exact ⟨.here :: first, y, mid, dirs, limit', rfl, .here hfirst, hchain⟩
  | up _ ih =>
    obtain ⟨info', hup⟩ := directory_dropLast hdir
    obtain ⟨first, y, mid, dirs, limit', rfl, hfirst, hchain⟩ := ih hup hgoal
    exact ⟨.up :: first, y, mid, dirs, limit', rfl, .up hfirst, hchain⟩
  | @down _ _ _ x _ _ hsearch hnode _ ih =>
    obtain ⟨first, y, mid, dirs, limit', rfl, hfirst, hchain⟩ := ih hnode hgoal
    exact ⟨.name x :: first, y, mid, dirs, limit', rfl, .down hsearch hnode hfirst, hchain⟩
  | @leaf limit dir x _ _ hnode =>
    obtain rfl := Node.leaf.inj (Option.some.inj (hnode.symm.trans hgoal))
    exact ⟨[], x, dir, [dir], limit, rfl, .done, .leaf hnode⟩
  | @follow limit dir _ x steps target hsearch hnode _ ih =>
    obtain ⟨info', hstart⟩ := @directory_start _ _ _ t dir target info hdir
    obtain ⟨first, y, mid, dirs, limit', hsteps, hfirst, hchain⟩ := ih hstart hgoal
    cases steps using List.reverseRecOn with
    | nil =>
      -- the link is the last name
      rw [List.append_nil] at hsteps
      exact ⟨[], x, dir, dir :: dirs, limit, rfl, .done, .link hnode hsteps hfirst hchain⟩
    | append_singleton rest last =>
      rw [← List.append_assoc] at hsteps
      obtain ⟨rfl, hlast⟩ := List.append_inj' hsteps rfl
      exact ⟨.name x :: rest, y, mid, dirs, limit' + 1, by rw [hlast]; rfl, .follow hsearch hnode hfirst, hchain⟩

end Entries

end LinkTree
