/-
Module: Mimi.Proofs.BlackboxOrder
Purpose: Black-box queries always return, and as long as the memory is not read where nothing was written, no analysis
  meets another open one and none starts inside a loop over options, every answer is the one of a fresh checker.
Trusted boundary: none
-/
import Mimi.Checker.LinearKind

namespace Mimi.Checker

open Mimi.Ast
open Mimi.Lib (Dialogue)

/-! ### The verdict without memory -/

/-- Other queries have their own verdicts, and the only open analysis is the one of `key`. -/
def oracleFor (verdict : BlackboxKey → Option Bool) (key : BlackboxKey) : Question → Option Bool
  | .sound callee _ => verdict callee
  | .visiting name => some (name == key.name)

/-- What a query means: an analysis of the body whose own queries mean the same, to a nesting depth. -/
def verdict (checker : LinearChecker) : Nat → BlackboxKey → Option Bool
  | 0, _ => none
  | n + 1, key =>
      if !checker.param_is_generic_position key.name key.param_index then some true
      else
        match checker.find_param key with
        | none => some false
        | some (func, param) =>
            ((checker.analysis key func param false).eval (oracleFor (verdict checker n) key)).map
              fun r => r.1.getD false

variable {checker : LinearChecker}

theorem oracleFor_mono {v v' : BlackboxKey → Option Bool} (hmono : ∀ key b, v key = some b → v' key = some b)
    (key : BlackboxKey) (q : Question) (b : Bool) (h : oracleFor v key q = some b) :
    oracleFor v' key q = some b := by
  cases q with
  | sound callee element_option => exact hmono callee b h
  | visiting name => exact h

variable {b : Bool}

theorem verdict_succ {n : Nat} {key : BlackboxKey} (h : verdict checker n key = some b) :
    verdict checker (n + 1) key = some b := by
  induction n generalizing key b with
  | zero => cases h
  | succ n ih =>
      rw [verdict] at h ⊢
      by_cases hgeneric : checker.param_is_generic_position key.name key.param_index
      · simp only [hgeneric, Bool.not_true, Bool.false_eq_true, if_false] at h ⊢
        cases hfind : checker.find_param key with
        | none => rwa [hfind] at h
        | some found =>
            simp only [hfind, Option.map_eq_some_iff] at h ⊢
            obtain ⟨r, hr, hb⟩ := h
            exact ⟨r, Dialogue.eval_mono (oracleFor_mono (fun key b => ih) key) hr, hb⟩
      · rw [Bool.not_eq_true] at hgeneric
        rwa [hgeneric] at h ⊢

theorem verdict_mono {m n : Nat} (hle : m ≤ n) {key : BlackboxKey}
    (h : verdict checker m key = some b) : verdict checker n key = some b := by
  induction hle with
  | refl => exact h
  | step _ ih => exact verdict_succ ih

/-- A query has one verdict. -/
theorem verdict_unique {m n : Nat} {key : BlackboxKey} {c : Bool} (hb : verdict checker m key = some b)
    (hc : verdict checker n key = some c) : b = c := by
  have h := verdict_mono (le_max_left m n) hb
  rw [verdict_mono (le_max_right m n) hc] at h
  exact (Option.some.inj h).symm

/-! ### One query -/

/-- The ways a query is answered. -/
inductive Replies (checker : LinearChecker) (fuel : Nat) (key : BlackboxKey) (element_option : Bool)
    (s : BlackboxState) : Bool → BlackboxState → Prop where
  | concrete (hgeneric : checker.param_is_generic_position key.name key.param_index = false) :
      Replies checker fuel key element_option s true (s.reply key true).2
  | remembered {v : Bool} (hcached : s.cached key = some v) :
      Replies checker fuel key element_option s v ((s.strayIf (!s.stored.contains key)).reply key v).2
  | reentered : Replies checker fuel key element_option s false ((s.strayIf true).reply key false).2
  | unknown (hgeneric : checker.param_is_generic_position key.name key.param_index = true)
      (hfind : checker.find_param key = none) :
      Replies checker fuel key element_option s false (s.reply key false).2
  | analysed {func : FuncDef} {param : Param} {r : Option Bool × BlackboxFlags} {t : BlackboxState}
      (hgeneric : checker.param_is_generic_position key.name key.param_index = true)
      (hfind : checker.find_param key = some (func, param))
      (hrun : (checker.analysis key func param element_option).run (answerIn (soundWithin checker fuel) key)
        ((s.strayIf element_option).enter key) = some (r, t)) :
      Replies checker fuel key element_option s (r.1.getD false)
        (((t.leave key).store key (r.1.getD false)).reply key (r.1.getD false)).2

variable {element_option : Bool} {s' : BlackboxState}

theorem replies_of_soundWithin {fuel : Nat} {key : BlackboxKey} {s : BlackboxState}
    (h : soundWithin checker (fuel + 1) key element_option s = some (b, s')) :
    Replies checker fuel key element_option s b s' := by
  rw [soundWithin] at h
  cases hgeneric : checker.param_is_generic_position key.name key.param_index with
  | false =>
      simp only [hgeneric, Bool.not_false, if_true, Option.some.injEq] at h
      obtain ⟨rfl, rfl⟩ := Prod.mk.inj h
      exact .concrete hgeneric
  | true =>
      simp only [hgeneric, Bool.not_true, Bool.false_eq_true, if_false] at h
      cases hcached : s.cached key with
      | some v =>
          simp only [hcached, Option.some.injEq] at h
          obtain ⟨rfl, rfl⟩ := Prod.mk.inj h
          exact .remembered hcached
      | none =>
          simp only [hcached] at h
          split at h
          · obtain ⟨rfl, rfl⟩ := Prod.mk.inj (Option.some.inj h)
            exact .reentered
          · cases hfind : checker.find_param key with
            | none =>
                simp only [hfind, Option.some.injEq] at h
                obtain ⟨rfl, rfl⟩ := Prod.mk.inj h
                exact .unknown hgeneric hfind
            | some found =>
                simp only [hfind, Option.map_eq_some_iff] at h
                obtain ⟨⟨r, t⟩, hrun, heq⟩ := h
                obtain ⟨rfl, rfl⟩ := Prod.mk.inj heq
                exact .analysed hgeneric hfind hrun

/-- What queries and strays keep, the answers to all questions keep. -/
theorem answerIn_keeps {P : BlackboxState → Prop}
    {sound : BlackboxKey → Bool → BlackboxState → Option (Bool × BlackboxState)}
    (hsound : ∀ key flag s b s', sound key flag s = some (b, s') → P s → P s')
    (hstray : ∀ s p, P s → P (BlackboxState.strayIf s p)) {key : BlackboxKey} (q : Question) (s : BlackboxState)
    (b : Bool) (s' : BlackboxState) (h : answerIn sound key q s = some (b, s')) (hs : P s) : P s' := by
  cases q with
  | sound callee flag => exact hsound callee flag s b s' h hs
  | visiting name =>
      obtain ⟨-, rfl⟩ := Prod.mk.inj (Option.some.inj h)
      exact hstray s _ hs

theorem strayIf_strayed {s : BlackboxState} (p : Bool) (hs : s.strayed = true) : (s.strayIf p).strayed = true := by
  change (s.strayed || p) = true
  rw [hs, Bool.true_or]

/-- The guards open after a query are those open before it. -/
theorem soundWithin_visiting {fuel : Nat} {key : BlackboxKey} {s : BlackboxState}
    (h : soundWithin checker fuel key element_option s = some (b, s')) :
    s'.linear_blackbox_visiting = s.linear_blackbox_visiting := by
  induction fuel generalizing key element_option s b s' with
  | zero => cases h
  | succ fuel ih =>
      cases replies_of_soundWithin h with
      | concrete | remembered | reentered | unknown => rfl
      | @analysed func param r t _ _ hrun =>
          have hkept : t.linear_blackbox_visiting = key :: s.linear_blackbox_visiting :=
            Dialogue.run_keeps (P := fun t => t.linear_blackbox_visiting = key :: s.linear_blackbox_visiting)
              (answerIn_keeps (fun _ _ _ _ _ hquery hu => (ih hquery).trans hu) fun _ _ hu => hu) hrun rfl
          change t.linear_blackbox_visiting.erase key = s.linear_blackbox_visiting
          rw [hkept, List.erase_cons_head]

/-- A checker that has strayed stays so. -/
theorem soundWithin_strayed {fuel : Nat} {key : BlackboxKey} {s : BlackboxState}
    (h : soundWithin checker fuel key element_option s = some (b, s')) (hs : s.strayed = true) :
    s'.strayed = true := by
  induction fuel generalizing key element_option s b s' with
  | zero => cases h
  | succ fuel ih =>
      cases replies_of_soundWithin h with
      | concrete | unknown => exact hs
      | remembered | reentered => exact strayIf_strayed _ hs
      | @analysed func param r t _ _ hrun =>
          exact Dialogue.run_keeps (P := fun t => t.strayed = true)
            (answerIn_keeps (fun _ _ _ _ _ hquery hu => ih hquery hu) fun _ p hu => strayIf_strayed p hu) hrun
            (strayIf_strayed element_option hs)

/-- So does one that has strayed amid an analysis. -/
theorem answerIn_strayed {fuel : Nat} {key : BlackboxKey} (q : Question) (s : BlackboxState) (b : Bool)
    (s' : BlackboxState) (h : answerIn (soundWithin checker fuel) key q s = some (b, s')) (hs : s.strayed = true) :
    s'.strayed = true :=
  answerIn_keeps (P := fun t => t.strayed = true) (fun _ _ _ _ _ hquery ht => soundWithin_strayed hquery ht)
    (fun _ p ht => strayIf_strayed p ht) q s b s' h hs

/-! ### The memory -/

/-- A write fills its slot. -/
theorem cached_store_self (s : BlackboxState) (key : BlackboxKey) (ok : Bool) :
    (s.store key ok).cached key = some ok := by
  have hcache : (s.store key ok).cache key.allow_drop key.name = some (s.entryWith key ok) := by
    cases hmode : key.allow_drop <;> simp [BlackboxState.cache, BlackboxState.store, hmode]
  rw [BlackboxState.cached, hcache, Option.bind_some, BlackboxState.entryWith]
  refine List.getElem?_set_self ?_
  simp only [List.length_append, List.length_replicate]
  omega

/-- A write leaves every other slot that exists. -/
theorem cached_store_of_ne {s : BlackboxState} {key other : BlackboxKey} {ok : Bool} (hne : other ≠ key)
    (hcached : s.cached other = some b) : (s.store key ok).cached other = some b := by
  obtain ⟨entry, hentry, hslot⟩ := Option.bind_eq_some_iff.mp hcached
  by_cases hsame : other.allow_drop = key.allow_drop ∧ other.name = key.name
  · have hindex : key.param_index ≠ other.param_index := fun heq =>
      hne (by cases other; cases key; simp_all)
    have hcache : (s.store key ok).cache other.allow_drop other.name = some (s.entryWith key ok) := by
      cases hmode : key.allow_drop <;> simp [BlackboxState.cache, BlackboxState.store, hmode, hsame]
    have hbefore : (s.cache key.allow_drop key.name).getD [] = entry := by
      rw [← hsame.1, ← hsame.2, hentry, Option.getD_some]
    have hlt : other.param_index < entry.length := (List.getElem?_eq_some_iff.mp hslot).1
    rw [BlackboxState.cached, hcache, Option.bind_some, BlackboxState.entryWith, hbefore,
      List.getElem?_set_ne hindex, List.getElem?_append_left hlt]
    exact hslot
  · have hcache : (s.store key ok).cache other.allow_drop other.name = s.cache other.allow_drop other.name := by
      cases hmode : key.allow_drop <;> cases hmode' : other.allow_drop <;>
        simp_all [BlackboxState.cache, BlackboxState.store]
    rw [BlackboxState.cached, hcache]
    exact hcached

/-- Every answer given and every slot written is the verdict of its query. -/
structure Truthful (checker : LinearChecker) (s : BlackboxState) : Prop where
  answered : ∀ p ∈ s.answered, ∃ n, verdict checker n p.1 = some p.2
  stored : ∀ key ∈ s.stored, ∃ b, s.cached key = some b ∧ ∃ n, verdict checker n key = some b

namespace Truthful

theorem fresh : Truthful checker .fresh := ⟨fun _ h => (nomatch h), fun _ h => (nomatch h)⟩

variable {s : BlackboxState}

theorem strayIf (hs : Truthful checker s) (p : Bool) : Truthful checker (s.strayIf p) := ⟨hs.answered, hs.stored⟩

theorem enter (hs : Truthful checker s) (key : BlackboxKey) : Truthful checker (s.enter key) :=
  ⟨hs.answered, hs.stored⟩

theorem leave (hs : Truthful checker s) (key : BlackboxKey) : Truthful checker (s.leave key) :=
  ⟨hs.answered, hs.stored⟩

theorem reply (hs : Truthful checker s) {key : BlackboxKey} (hb : ∃ n, verdict checker n key = some b) :
    Truthful checker (s.reply key b).2 where
  answered p hp := by
    obtain rfl | hp := List.mem_cons.mp hp
    · exact hb
    · exact hs.answered p hp
  stored := hs.stored

theorem store (hs : Truthful checker s) {key : BlackboxKey} (hb : ∃ n, verdict checker n key = some b) :
    Truthful checker (s.store key b) where
  answered := hs.answered
  stored other hother := by
    by_cases heq : other = key
    · subst heq
      exact ⟨b, cached_store_self s other b, hb⟩
    · obtain ⟨c, hc, hverdict⟩ := hs.stored other ((List.mem_cons.mp hother).resolve_left heq)
      exact ⟨c, cached_store_of_ne heq hc, hverdict⟩

end Truthful

/-- A query that does not stray answers with its verdict and keeps the memory truthful. -/
theorem soundWithin_truthful {fuel : Nat} {key : BlackboxKey} {s : BlackboxState}
    (hs : Truthful checker s) (h : soundWithin checker fuel key element_option s = some (b, s'))
    (hgood : s'.strayed = false) : Truthful checker s' ∧ ∃ n, verdict checker n key = some b := by
  induction fuel generalizing key element_option s b s' with
  | zero => cases h
  | succ fuel ih =>
      cases replies_of_soundWithin h with
      | concrete hgeneric =>
          have hverdict : ∃ n, verdict checker n key = some true := ⟨1, by simp [verdict, hgeneric]⟩
          exact ⟨hs.reply hverdict, hverdict⟩
      | remembered hcached =>
          have hkept : s.strayed = false ∧ s.stored.contains key = true := by
            have hor : (s.strayed || !s.stored.contains key) = false := hgood
            simpa using hor
          obtain ⟨c, hc, hverdict⟩ := hs.stored key (List.contains_iff_mem.mp hkept.2)
          obtain rfl : c = b := Option.some.inj (hc.symm.trans hcached)
          exact ⟨(hs.strayIf _).reply hverdict, hverdict⟩
      | reentered =>
          have hor : (s.strayed || true) = false := hgood
          simp at hor
      | unknown hgeneric hfind =>
          have hverdict : ∃ n, verdict checker n key = some false := ⟨1, by simp [verdict, hgeneric, hfind]⟩
          exact ⟨hs.reply hverdict, hverdict⟩
      | @analysed func param r t hgeneric hfind hrun =>
          have hstart : element_option = false := by
            by_contra hflag
            rw [Bool.not_eq_false] at hflag
            have hentry : ((s.strayIf element_option).enter key).strayed = true := by
              change (s.strayed || element_option) = true
              rw [hflag, Bool.or_true]
            have hstrayed : t.strayed = true :=
              Dialogue.run_keeps (P := fun t => t.strayed = true) answerIn_strayed hrun hentry
            exact Bool.noConfusion (hstrayed.symm.trans hgood)
          subst hstart
          -- While the body is analysed its own guard is open, and the memory stays truthful.
          have hbody : (Truthful checker t ∧ key ∈ t.linear_blackbox_visiting) ∧
              ∃ n, (checker.analysis key func param false).eval (oracleFor (verdict checker n) key) = some r := by
            refine Dialogue.run_faithful (fun n => oracleFor (verdict checker n) key)
              (fun t => Truthful checker t ∧ key ∈ t.linear_blackbox_visiting) (fun t => t.strayed = false) ?_ ?_ ?_
              ⟨(hs.strayIf false).enter key, List.mem_cons_self⟩ hrun hgood
            · intro m n q a hle hq
              exact oracleFor_mono (fun key b => verdict_mono hle) key q a hq
            · intro q u a u' hanswer hu'
              by_contra hstray
              rw [Bool.not_eq_false] at hstray
              exact Bool.noConfusion ((answerIn_strayed q u a u' hanswer hstray).symm.trans hu')
            · intro q u a u' hu hanswer hu'
              cases q with
              | sound callee flag =>
                  obtain ⟨htruthful, hverdict⟩ := ih hu.1 hanswer hu'
                  exact ⟨⟨htruthful, (soundWithin_visiting hanswer).symm ▸ hu.2⟩, hverdict⟩
              | visiting name =>
                  obtain ⟨rfl, rfl⟩ := Prod.mk.inj (Option.some.inj hanswer)
                  refine ⟨⟨hu.1.strayIf _, hu.2⟩, 0, ?_⟩
                  have hown : (u.visits name && name != key.name) = false := (Bool.or_eq_false_iff.mp hu').2
                  have hopen : u.visits key.name = true := List.any_eq_true.mpr ⟨key, hu.2, beq_self_eq_true _⟩
                  by_cases hname : name = key.name
                  · simp [oracleFor, hname, hopen]
                  · have hclosed : u.visits name = false := by simpa [hname] using hown
                    simp [oracleFor, hname, hclosed]
          obtain ⟨⟨htruthful, -⟩, n, hn⟩ := hbody
          have hverdict : ∃ n, verdict checker n key = some (r.1.getD false) :=
            ⟨n + 1, by simp [verdict, hgeneric, hfind, hn]⟩
          exact ⟨((htruthful.leave key).store hverdict).reply hverdict, hverdict⟩

/-! ### Every query returns -/

theorem find_param_guard {key : BlackboxKey} {func : FuncDef} {param : Param}
    (h : checker.find_param key = some (func, param)) : key ∈ checker.guards := by
  obtain ⟨f, hf, hmap⟩ := Option.bind_eq_some_iff.mp h
  obtain ⟨item, hitem, hname⟩ := List.exists_of_findSome?_eq_some hf
  obtain ⟨p, hp, -⟩ := Option.map_eq_some_iff.mp hmap
  have hlt : key.param_index < f.params.length := (List.getElem?_eq_some_iff.mp hp).1
  cases item with
  | func g =>
      obtain ⟨hg, heq⟩ : g.name = key.name ∧ g = f := by simpa using hname
      subst heq
      refine List.mem_flatMap.mpr ⟨.func g, hitem, List.mem_flatMap.mpr ⟨key.param_index, ?_, ?_⟩⟩
      · exact List.mem_range.mpr hlt
      · cases hmode : key.allow_drop <;> cases key <;> simp_all
  | _ => cases hname

/-- With more fuel than guards left to open a query is answered. -/
theorem soundWithin_total (checker : LinearChecker) (fuel : Nat) {open_ : List BlackboxKey} (hnodup : open_.Nodup)
    (hguards : open_ ⊆ checker.guards) (hfuel : checker.guards.length < fuel + open_.length) (key : BlackboxKey)
    (element_option : Bool) (s : BlackboxState) (hs : s.linear_blackbox_visiting = open_) :
    ∃ b s', soundWithin checker fuel key element_option s = some (b, s') := by
  induction fuel generalizing open_ key element_option s with
  | zero =>
      have hle : open_.length ≤ checker.guards.length := (hnodup.subperm hguards).length_le
      omega
  | succ fuel ih =>
      rw [soundWithin]
      split
      · exact ⟨_, _, rfl⟩
      · split
        · exact ⟨_, _, rfl⟩
        · split
          · exact ⟨_, _, rfl⟩
          · rename_i hclosed
            cases hfind : checker.find_param key with
            | none => exact ⟨_, _, rfl⟩
            | some found =>
                obtain ⟨func, param⟩ := found
                have hnew : key ∉ open_ := fun hmem => hclosed (hs ▸ List.contains_iff_mem.mpr hmem)
                have hanswer : ∀ q u, u.linear_blackbox_visiting = key :: open_ →
                    ∃ a u', answerIn (soundWithin checker fuel) key q u = some (a, u') ∧
                      u'.linear_blackbox_visiting = key :: open_ := by
                  intro q u hu
                  cases q with
                  | sound callee flag =>
                      obtain ⟨a, u', ha⟩ := ih (List.nodup_cons.mpr ⟨hnew, hnodup⟩)
                        (List.cons_subset.mpr ⟨find_param_guard hfind, hguards⟩)
                        (by rw [List.length_cons]; omega) callee flag u hu
                      exact ⟨a, u', ha, (soundWithin_visiting ha).trans hu⟩
                  | visiting name => exact ⟨_, _, rfl, hu⟩
                obtain ⟨r, t, hrun, -⟩ :=
                  Dialogue.run_total (fun u => u.linear_blackbox_visiting = key :: open_) hanswer
                    (checker.analysis key func param element_option) ((s.strayIf element_option).enter key)
                    (congrArg (key :: ·) hs)
                simp only [hrun, Option.map_some]
                exact ⟨_, _, rfl⟩

/-- A query on a checker with no open analysis returns and leaves none open. -/
theorem generic_linear_blackbox_sound_total (checker : LinearChecker) (key : BlackboxKey) {s : BlackboxState}
    (hs : s.linear_blackbox_visiting = []) :
    ∃ b s', generic_linear_blackbox_sound checker key s = some (b, s') ∧ s'.linear_blackbox_visiting = [] := by
  obtain ⟨b, s', h⟩ := soundWithin_total checker (checker.guards.length + 1) List.nodup_nil
    (List.nil_subset _) (by simp) key false s hs
  exact ⟨b, s', h, (soundWithin_visiting h).trans hs⟩

theorem ask_all_total (checker : LinearChecker) (queries : List BlackboxKey) {s : BlackboxState} (hs : s.linear_blackbox_visiting = []) :
    ∃ answers s', ask_all checker queries s = some (answers, s') := by
  induction queries generalizing s with
  | nil => exact ⟨[], s, rfl⟩
  | cons key keys ih =>
      obtain ⟨b, t, hquery, ht⟩ := generic_linear_blackbox_sound_total checker key hs
      obtain ⟨answers, s', hrest⟩ := ih ht
      exact ⟨b :: answers, s', by simp [ask_all, hquery, hrest]⟩

/-! ### Sequences of queries -/

/-- The answer to a query is recorded. -/
theorem soundWithin_answered {fuel : Nat} {key : BlackboxKey} {s : BlackboxState}
    (h : soundWithin checker fuel key element_option s = some (b, s')) : (key, b) ∈ s'.answered := by
  cases fuel with
  | zero => cases h
  | succ fuel => cases replies_of_soundWithin h <;> exact List.mem_cons_self

/-- Recorded answers stay. -/
theorem soundWithin_keeps_answered {fuel : Nat} {key : BlackboxKey} {s : BlackboxState}
    (h : soundWithin checker fuel key element_option s = some (b, s')) : s.answered ⊆ s'.answered := by
  induction fuel generalizing key element_option s b s' with
  | zero => cases h
  | succ fuel ih =>
      cases replies_of_soundWithin h with
      | concrete | remembered | reentered | unknown => exact List.subset_cons_self _ _
      | @analysed func param r t _ _ hrun =>
          have hkept : s.answered ⊆ t.answered :=
            Dialogue.run_keeps (P := fun t => s.answered ⊆ t.answered)
              (answerIn_keeps (fun _ _ _ _ _ hquery hu => List.Subset.trans hu (ih hquery)) fun _ _ hu => hu)
              hrun (List.Subset.refl _)
          exact List.Subset.trans hkept (List.subset_cons_self _ _)

variable {queries : List BlackboxKey}

theorem ask_all_strayed {s : BlackboxState} {answers : List Bool}
    (h : ask_all checker queries s = some (answers, s')) (hs : s.strayed = true) : s'.strayed = true := by
  induction queries generalizing s answers with
  | nil =>
      obtain ⟨-, rfl⟩ := Prod.mk.inj (Option.some.inj h)
      exact hs
  | cons key keys ih =>
      obtain ⟨⟨b, t⟩, hquery, hmap⟩ := Option.bind_eq_some_iff.mp h
      obtain ⟨⟨rest, u⟩, hrest, heq⟩ := Option.map_eq_some_iff.mp hmap
      obtain ⟨-, rfl⟩ := Prod.mk.inj heq
      exact ih hrest (soundWithin_strayed hquery hs)

/-- A sequence of queries records its answers and, when it does not stray, keeps the memory truthful. -/
theorem ask_all_records {s : BlackboxState} {answers : List Bool}
    (h : ask_all checker queries s = some (answers, s')) :
    s.answered ⊆ s'.answered ∧ queries.zip answers ⊆ s'.answered := by
  induction queries generalizing s answers with
  | nil =>
      obtain ⟨rfl, rfl⟩ := Prod.mk.inj (Option.some.inj h)
      exact ⟨List.Subset.refl _, List.nil_subset _⟩
  | cons key keys ih =>
      obtain ⟨⟨b, t⟩, hquery, hmap⟩ := Option.bind_eq_some_iff.mp h
      obtain ⟨⟨rest, u⟩, hrest, heq⟩ := Option.map_eq_some_iff.mp hmap
      obtain ⟨rfl, rfl⟩ := Prod.mk.inj heq
      obtain ⟨hkept, hzip⟩ := ih hrest
      exact ⟨List.Subset.trans (soundWithin_keeps_answered hquery) hkept,
        List.cons_subset.mpr ⟨hkept (soundWithin_answered hquery), hzip⟩⟩

theorem ask_all_truthful {s : BlackboxState} {answers : List Bool}
    (hs : Truthful checker s) (h : ask_all checker queries s = some (answers, s')) (hgood : s'.strayed = false) :
    Truthful checker s' := by
  induction queries generalizing s answers with
  | nil =>
      obtain ⟨-, rfl⟩ := Prod.mk.inj (Option.some.inj h)
      exact hs
  | cons key keys ih =>
      obtain ⟨⟨b, t⟩, hquery, hmap⟩ := Option.bind_eq_some_iff.mp h
      obtain ⟨⟨rest, u⟩, hrest, heq⟩ := Option.map_eq_some_iff.mp hmap
      obtain ⟨-, rfl⟩ := Prod.mk.inj heq
      have ht : t.strayed = false := by
        by_contra hstray
        rw [Bool.not_eq_false] at hstray
        exact Bool.noConfusion ((ask_all_strayed hrest hstray).symm.trans hgood)
      exact ih (soundWithin_truthful hs hquery ht).1 hrest

/-- Every sequence of queries returns, and each of its answers, and each answer to a query that the analyses make
themselves, is the answer of a fresh checker, as long as neither the sequence nor the fresh checker strays. -/
theorem answers_order_independent (checker : LinearChecker) (queries : List BlackboxKey) :
    ∃ answers s, ask_all checker queries .fresh = some (answers, s) ∧ queries.zip answers ⊆ s.answered ∧
      (s.strayed = false → ∀ key b, (key, b) ∈ s.answered →
        ∃ c t, generic_linear_blackbox_sound checker key .fresh = some (c, t) ∧ (t.strayed = false → b = c)) := by
  obtain ⟨answers, s, hrun⟩ := ask_all_total checker queries (s := .fresh) rfl
  refine ⟨answers, s, hrun, (ask_all_records hrun).2, ?_⟩
  intro hgood key b hanswer
  obtain ⟨c, t, hquery, -⟩ := generic_linear_blackbox_sound_total checker key (s := .fresh) rfl
  refine ⟨c, t, hquery, ?_⟩
  intro ht
  obtain ⟨m, hb⟩ := (ask_all_truthful .fresh hrun hgood).answered (key, b) hanswer
  obtain ⟨-, n, hc⟩ := soundWithin_truthful .fresh hquery ht
  exact verdict_unique hb hc

/-! ### The three ways to stray -/

def plainParam (name : String) (ty : Ty) : Param where
  info := ⟨.unknown, .user, .none⟩
  name := name
  ty := ty
  mut_ := false
  default_value := none
  borrow := none

def plainGeneric (name : String) : GenericParam := ⟨⟨.unknown, .user, .none⟩, name, [], .free⟩

def plainPattern (kind : PatternKind) : Pattern := ⟨⟨.unknown, .user, .none⟩, kind⟩

/-- A function of the type parameters `T` and `U`. -/
def genericFunc (name : String) (params : List Param) (body : List Stmt) : FuncDef where
  info := ⟨.unknown, .user, .none⟩
  name := name
  pub_ := false
  params := params
  ret := none
  body := body
  where_clause := []
  generics := [plainGeneric "T", plainGeneric "U"]
  effects := []
  is_comptime := false
  is_async := false
  extern_abi := none
  has_requires := false
  has_ensures := false
  has_mutate_params := false

/-- The checker of a file of such functions. -/
def genericChecker (functions : List FuncDef) : LinearChecker where
  items := functions.map Item.func
  funcs := fun name => (functions.find? fun f => f.name == name).map fun f => (f.params.map Param.ty, .nothing)
  func_generics := fun name => (functions.find? fun f => f.name == name).map FuncDef.generics
  is_builtin_callable := fun name => name == "println"

/-- `func pair<T, U>(a: T, b: U) { return (a, b) }`. -/
def pairChecker : LinearChecker :=
  genericChecker
    [genericFunc "pair" [plainParam "a" (.name "T" []), plainParam "b" (.name "U" [])]
      [.return_ (some (.tuple [.ident "a", .ident "b"]))]]

/-- `func f<T>(x: T) { return g(x) }` and `func g<T>(x: T) { if true { f(x) } else { drop(x) } }`. -/
def mutualChecker : LinearChecker :=
  genericChecker
    [genericFunc "f" [plainParam "x" (.name "T" [])] [.return_ (some (.call (.ident "g") [.ident "x"]))],
      genericFunc "g" [plainParam "x" (.name "T" [])]
        [.if_ (.literal (.bool true)) [.expr (.call (.ident "f") [.ident "x"])] (some [.drop (.ident "x")])]]

/-- `func settle<T>(r: Result<T, i32>) { if let Ok(y) = r { drop(y) } }` and
`func each<T>(xs: List<Option<T>>) { for o in xs { if let Some(y) = o { settle(Ok(y)) } } }`. -/
def optionLoopChecker : LinearChecker :=
  genericChecker
    [genericFunc "settle" [plainParam "r" (.result (.name "T" []) (.name "i32" []))]
        [.ifLet (plainPattern (.constructor "Ok" [("0", plainPattern (.variable_ "y"))])) (.ident "r")
          [.drop (.ident "y")] none],
      genericFunc "each" [plainParam "xs" (.name "List" [.option (.name "T" [])])]
        [.for_ (plainPattern (.variable_ "o")) (.ident "xs")
          [.ifLet (plainPattern (.constructor "Some" [("0", plainPattern (.variable_ "y"))])) (.ident "o")
            [.expr (.call (.ident "settle") [.call (.ident "Ok") [.ident "y"]])] none]]]

/-- Asked for its second parameter first, `pair` is refused its first one; asked after `g`, the transfer-only `f` is
accepted; asked after the loop over options, `settle` is accepted.  A fresh checker says the opposite each time. -/
theorem order_changes_answers :
    ((ask_all pairChecker [⟨"pair", 1, true⟩, ⟨"pair", 0, true⟩] .fresh).map Prod.fst = some [true, false] ∧
      (generic_linear_blackbox_sound pairChecker ⟨"pair", 0, true⟩ .fresh).map Prod.fst = some true) ∧
    ((ask_all mutualChecker [⟨"g", 0, false⟩, ⟨"f", 0, false⟩] .fresh).map Prod.fst = some [false, true] ∧
      (generic_linear_blackbox_sound mutualChecker ⟨"f", 0, false⟩ .fresh).map Prod.fst = some false) ∧
    ((ask_all optionLoopChecker [⟨"each", 0, true⟩, ⟨"settle", 0, true⟩] .fresh).map Prod.fst = some [true, true] ∧
      (generic_linear_blackbox_sound optionLoopChecker ⟨"settle", 0, true⟩ .fresh).map Prod.fst = some false) := by
  decide

end Mimi.Checker
