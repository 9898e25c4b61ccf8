import Ebnf.Proofs.Configured

/-! Settings written in place. A grammar is changed entry by entry, and nothing would undo a change
when a later entry is at fault; but all entries are checked before the first one is written. So a
refused call leaves the grammar as it was, and what is left by other calls is what the settings of a
copy would give. -/

namespace Ebnf

theorem bind_eq_error {ε α β : Type} {x : Except ε α} {f : α → Except ε β} {e : ε} :
    x >>= f = .error e ↔ x = .error e ∨ ∃ a, x = .ok a ∧ f a = .error e := by
  cases x <;> simp [bind, Except.bind]

theorem exists_mapM_eq_error {ε α β : Type} {f : α → Except ε β} {as : List α} :
    (∃ e, as.mapM f = .error e) ↔ ∃ a ∈ as, ∃ e, f a = .error e := by
  induction as with
  | nil => simp [pure, Except.pure]
  | cons a as ih =>
    rw [List.mapM_cons, List.exists_mem_cons_iff, ← ih]
    constructor
    · rintro ⟨e, h⟩
      rcases bind_eq_error.1 h with ha | ⟨b, -, h⟩
      · exact .inl ⟨e, ha⟩
      · rcases bind_eq_error.1 h with has | ⟨bs, -, h⟩
        · exact .inr ⟨e, has⟩
        · cases h
    · rintro (⟨e, ha⟩ | ⟨e, has⟩)
      · exact ⟨e, bind_eq_error.2 (.inl ha)⟩
      · cases hb : f a with
        | error e' => exact ⟨e', rfl⟩
        | ok b => exact ⟨e, bind_eq_error.2 (.inr ⟨b, rfl, bind_eq_error.2 (.inl has)⟩)⟩

namespace Grammar

/-- The update that an entry stands for, or what is wrong with the entry. -/
def updateOf (g : Grammar) (rule : String) (root : NodeId) (entry : String × NodeSettings) :
    Except GrammarError NodeUpdate :=
  match g.graph.findLabelled root entry.1 with
  | none => .error (.config rule (.noNode entry.1))
  | some id => (entry.2.updateFor g.graph id).mapError fun f => .config rule (.node entry.1 f)

theorem updatesFor_eq (g : Grammar) (rule : String) (root : NodeId) (settings : RuleSettings) :
    g.updatesFor rule root settings = settings.entries.mapM (g.updateOf rule root) := rfl

abbrev InPlace := ExceptT GrammarError (StateM Grammar)

namespace InPlace

def after {α : Type} (x : InPlace α) (g : Grammar) : Except GrammarError α × Grammar :=
  (x.run.run g).run

def read {α : Type} (f : Grammar → Except GrammarError α) : InPlace α := do
  let g ← get
  f g

def write (f : Graph → NodeUpdate → Graph) (updates : List NodeUpdate) : InPlace Unit :=
  forM updates fun u => modify fun g => { g with graph := f g.graph u }

end InPlace

open InPlace in
/-- Settings applied to the grammar itself: all entries are checked, then all bounds are written,
and then all weights. -/
def configureInPlace (rule : String) (settings : RuleSettings) : InPlace Unit := do
  let root ← read fun g => g.root rule
  let updates ← settings.entries.mapM fun entry => read fun g => g.updateOf rule root entry
  write Graph.setYield updates
  write Graph.setWeightsOf updates

namespace InPlace

variable {α β : Type}

theorem after_bind (x : InPlace α) (f : α → InPlace β) (g : Grammar) : (x >>= f).after g =
    match x.after g with
    | (.ok a, g') => (f a).after g'
    | (.error err, g') => (.error err, g') := by
  show (ExceptT.bindCont f (x.after g).1 (x.after g).2) = _
  rcases x.after g with ⟨_ | a, g'⟩ <;> rfl

theorem after_read (f : Grammar → Except GrammarError α) (g : Grammar) :
    (read f).after g = (f g, g) := rfl

theorem after_write (f : Graph → NodeUpdate → Graph) (updates : List NodeUpdate) (g : Grammar) :
    (write f updates).after g = (.ok (), { g with graph := updates.foldl f g.graph }) := by
  induction updates generalizing g with
  | nil => rfl
  | cons u updates ih =>
    rw [write, List.forM_cons, after_bind]
    exact ih _

theorem after_mapM_read (f : Grammar → α → Except GrammarError β) (as : List α) (g : Grammar) :
    (as.mapM fun a => read fun g => f g a).after g = (as.mapM (f g), g) := by
  induction as with
  | nil => rfl
  | cons a as ih =>
    rw [List.mapM_cons, List.mapM_cons, after_bind, after_read]
    cases f g a with
    | error err => rfl
    | ok b =>
      dsimp only
      rw [after_bind, ih]
      cases as.mapM (f g) <;> rfl

end InPlace

open InPlace in
theorem after_configureInPlace (g : Grammar) (rule : String) (settings : RuleSettings) :
    (configureInPlace rule settings).after g = match g.configure rule settings with
      | .ok g' => (.ok (), g')
      | .error err => (.error err, g) := by
  unfold configureInPlace
  rw [after_bind, after_read]
  cases hroot : g.root rule with
  | error err =>
    have hrefused : g.configure rule settings = .error err := bind_eq_error.2 (.inl hroot)
    rw [hrefused]
  | ok root =>
    -- the checks come first and change nothing, and the writes behind them cannot fail
    dsimp only
    rw [after_bind, after_mapM_read, ← updatesFor_eq]
    cases hupdates : g.updatesFor rule root settings with
    | error err =>
      have hrefused : g.configure rule settings = .error err :=
        bind_eq_error.2 (.inr ⟨root, hroot, bind_eq_error.2 (.inl hupdates)⟩)
      rw [hrefused]
    | ok updates =>
      have hset : g.configure rule settings = .ok { g with graph := g.graph.update updates } :=
        bind_eq_ok.2 ⟨root, hroot, bind_eq_ok.2 ⟨updates, hupdates, rfl⟩⟩
      dsimp only
      rw [hset, after_bind, after_write]
      exact after_write _ _ _

theorem configure_eq_error {g : Grammar} {rule : String} {settings : RuleSettings} :
    (∃ err, g.configure rule settings = .error err) ↔ g.rules.lookup rule = none ∨
      ∃ root, g.rules.lookup rule = some root ∧
        ∃ entry ∈ settings.entries, ∃ err, g.updateOf rule root entry = .error err := by
  unfold configure root
  cases hroot : g.rules.lookup rule with
  | none => exact ⟨fun _ => .inl rfl, fun _ => ⟨_, rfl⟩⟩
  | some root =>
    have hentries : (∃ err, g.updatesFor rule root settings = .error err) ↔
        ∃ entry ∈ settings.entries, ∃ err, g.updateOf rule root entry = .error err :=
      exists_mapM_eq_error
    constructor
    · rintro ⟨err, h⟩
      refine .inr ⟨root, rfl, hentries.1 ⟨err, ?_⟩⟩
      rcases bind_eq_error.1 h with h | ⟨root', heq, h⟩
      · cases h
      · cases heq
        exact (bind_eq_error.1 h).resolve_right fun ⟨_, _, hok⟩ => by cases hok
    · rintro (hnone | ⟨root', heq, hentry⟩)
      · cases hnone
      · cases heq
        obtain ⟨err, h⟩ := hentries.2 hentry
        exact ⟨err, bind_eq_error.2 (.inr ⟨root, rfl, bind_eq_error.2 (.inl h)⟩)⟩

end Grammar

end Ebnf
