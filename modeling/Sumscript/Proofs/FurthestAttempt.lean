import Sumscript.Proofs.AbridgedCourse

/-! # The furthest attempt of a course

Of two courses one after another the furthest failed attempt is the further one of both, and of
equals the later. What is attempted again may therefore be left out where it does not overtake
what came before it.
-/

namespace Sumscript

namespace Token

/-- The furthest of two attempts, one before the other. -/
def furtherOf (first : Option Token) : Option Token → Option Token
  | none => first
  | some t => orFurther first t

theorem overtakes_iff {t u : Token} : t.overtakes u = true ↔
    u.stop < t.stop ∨ u.stop = t.stop ∧ u.start ≤ t.start := by
  simp only [overtakes, Bool.or_eq_true, Bool.and_eq_true, decide_eq_true_eq, beq_iff_eq]
  omega

@[simp] theorem furtherOf_none (a : Option Token) : furtherOf a none = a :=
  rfl

@[simp] theorem none_furtherOf (a : Option Token) : furtherOf none a = a := by
  cases a <;> rfl

theorem some_furtherOf_some {t u : Token} :
    furtherOf (some u) (some t) = if t.overtakes u then some t else some u :=
  rfl

theorem furtherOf_eq_right {a : Option Token} {t : Token}
    (h : ∀ u ∈ a, u.stop < t.stop ∨ u.stop = t.stop ∧ u.start ≤ t.start) :
    furtherOf a (some t) = some t := by
  cases a with
  | none => rfl
  | some u => rw [some_furtherOf_some, if_pos (overtakes_iff.mpr (h u rfl))]

theorem furtherOf_eq_left {a : Option Token} {t : Token}
    (h : ∀ u ∈ a, u = t ∨ u.stop < t.stop ∨ u.stop = t.stop ∧ u.start < t.start) :
    furtherOf (some t) a = some t := by
  cases a with
  | none => rfl
  | some u =>
      rw [some_furtherOf_some]
      rcases h u rfl with rfl | hless
      · rw [ite_self]
      · rw [if_neg fun hovertakes => ?_]
        have := overtakes_iff.mp hovertakes
        omega

theorem furtherOf_assoc (a b c : Option Token) :
    furtherOf (furtherOf a b) c = furtherOf a (furtherOf b c) := by
  cases a <;> cases b <;> cases c <;> try simp
  simp only [some_furtherOf_some]
  grind [overtakes_iff, some_furtherOf_some]

/-- What comes again behind something else counts only once, there. -/
theorem furtherOf_again (a b : Option Token) : furtherOf a (furtherOf b a) = furtherOf b a := by
  cases a <;> cases b <;> try simp
  · simp [some_furtherOf_some]
  · simp only [some_furtherOf_some]
    grind [overtakes_iff, some_furtherOf_some]

theorem furtherOf_self (a : Option Token) : furtherOf a a = a := by
  simpa using furtherOf_again a none

/-- What is overtaken is overtaken by everything that is further. -/
theorem furtherOf_absorb {a b : Option Token} (h : furtherOf a b = b) (c : Option Token) :
    furtherOf a (furtherOf c b) = furtherOf c b := by
  calc furtherOf a (furtherOf c b) = furtherOf a (furtherOf c (furtherOf a b)) := by rw [h]
    _ = furtherOf (furtherOf a (furtherOf c a)) b := by rw [furtherOf_assoc, furtherOf_assoc]
    _ = furtherOf (furtherOf c a) b := by rw [furtherOf_again]
    _ = furtherOf c b := by rw [furtherOf_assoc, h]

theorem furtherOf_eq_some {a b : Option Token} {t : Token} (h : furtherOf a b = some t) :
    a = some t ∨ b = some t := by
  cases b with
  | none => exact .inl h
  | some u =>
      cases a with
      | none => exact .inr h
      | some v =>
          rw [some_furtherOf_some] at h
          split at h
          · exact .inr h
          · exact .inl h

theorem foldl_orFurther (l : List Token) (a : Option Token) :
    l.foldl orFurther a = furtherOf a (l.foldl orFurther none) := by
  induction l generalizing a with
  | nil => rfl
  | cons t l ih =>
      rw [List.foldl_cons, List.foldl_cons, ih, ih (orFurther none t), ← furtherOf_assoc]
      rfl

theorem foldl_eq_none {l : List Token} (h : l.foldl orFurther none = none) : l = [] := by
  cases l with
  | nil => rfl
  | cons t l =>
      rw [List.foldl_cons, foldl_orFurther] at h
      change furtherOf (some t) _ = none at h
      cases hrest : l.foldl orFurther none with
      | none => rw [hrest] at h; cases h
      | some u =>
          rw [hrest, some_furtherOf_some] at h
          split at h <;> cases h

/-- The furthest of several attempts is no less far than those before it and further than those
behind it. -/
theorem exists_of_foldl {l : List Token} {t : Token} (h : l.foldl orFurther none = some t) :
    ∃ earlier later, l = earlier ++ t :: later ∧ (∀ u ∈ earlier, t.overtakes u = true) ∧
      ∀ u ∈ later, u.overtakes t = false := by
  induction l generalizing t with
  | nil => cases h
  | cons u l ih =>
      rw [List.foldl_cons, foldl_orFurther] at h
      change furtherOf (some u) _ = _ at h
      cases hrest : l.foldl orFurther none with
      | none =>
          obtain rfl := foldl_eq_none hrest
          cases h
          exact ⟨[], [], rfl, List.forall_mem_nil _, List.forall_mem_nil _⟩
      | some t' =>
          obtain ⟨earlier, later, rfl, hearlier, hlater⟩ := ih hrest
          rw [hrest, some_furtherOf_some] at h
          split at h
          next hovertakes =>
            cases h
            exact ⟨u :: earlier, later, rfl, List.forall_mem_cons.mpr ⟨hovertakes, hearlier⟩, hlater⟩
          next hbehind =>
            cases h
            refine ⟨[], _, rfl, List.forall_mem_nil _, fun v hv => ?_⟩
            rw [← Bool.not_eq_true, overtakes_iff]
            rw [overtakes_iff] at hbehind
            rcases List.mem_append.mp hv with hv | hv
            · have := overtakes_iff.mp (hearlier v hv)
              omega
            · rcases List.mem_cons.mp hv with rfl | hv
              · exact hbehind
              · have := hlater v hv
                rw [← Bool.not_eq_true, overtakes_iff] at this
                omega

end Token

open Token

namespace Course

/-- The furthest failed attempt of a course. -/
def furthest (c : Course) : Option Token :=
  c.failures.foldl orFurther none

variable {c c' : Course} {rule : Rule} {start k k' limit others : Nat} {failure : Option Nat}
  {seen : List Nat} {reuse : Bool}

@[simp] theorem furthest_nothing : furthest .nothing = none :=
  rfl

@[simp] theorem furthest_next : (next c c').furthest = furtherOf c.furthest c'.furthest := by
  unfold furthest
  rw [failures, List.foldl_append, foldl_orFurther]

@[simp] theorem furthest_ahead : (ahead c).furthest = none :=
  rfl

@[simp] theorem furthest_matched : (attempt rule start none c).furthest = c.furthest := by
  unfold furthest
  rw [failures, reported, List.append_nil]

theorem furthest_failed {r : Nat} (hrule : rule.isLexical = false) :
    (attempt rule start (some r) c).furthest =
      furtherOf c.furthest (some ⟨.rule rule, start, r⟩) := by
  unfold furthest
  rw [failures, reported, hrule, List.foldl_append]
  rfl

theorem mem_of_furthest {t : Token} (h : c.furthest = some t) : t ∈ c.failures := by
  obtain ⟨earlier, later, hsplit, -⟩ := exists_of_foldl h
  rw [hsplit]
  exact List.mem_append_right _ List.mem_cons_self

/-- No failed attempt is further than the furthest. -/
theorem overtakes_of_furthest {t u : Token} (h : c.furthest = some t) (hu : u ∈ c.failures) :
    u.stop < t.stop ∨ u.stop = t.stop ∧ u.start ≤ t.start := by
  obtain ⟨earlier, later, hsplit, hearlier, hlater⟩ := exists_of_foldl h
  rw [hsplit] at hu
  rcases List.mem_append.mp hu with hu | hu
  · exact overtakes_iff.mp (hearlier u hu)
  · rcases List.mem_cons.mp hu with rfl | hu
    · omega
    · have := hlater u hu
      rw [← Bool.not_eq_true, overtakes_iff] at this
      omega

theorem Quiet.furthest (h : c.Quiet) : c.furthest = none := by
  unfold Course.furthest
  rw [h.failures]
  rfl

/-- Two courses report the same failure and go past the same limits at the same attempts. -/
structure Alike (c c' : Course) : Prop where
  furthest : c.furthest = c'.furthest
  pastLimit : ∀ limit others, c.pastLimit limit others = c'.pastLimit limit others

/-- Where a course goes past a limit, another one goes past it as well. -/
def Covers (c c' : Course) : Prop :=
  ∀ limit others, c.pastLimit limit others = none → c'.pastLimit limit others = none

/-- What is attempted of a course when it is gone again. -/
def revisit (c : Course) : Course :=
  c.abridge true c.remembered

/-- Going a course again does not change its furthest failure. -/
def Settled (c : Course) : Prop :=
  furtherOf c.furthest c.revisit.furthest = c.furthest

/-- Where nothing at an offset or behind it is known, leaving out what is known changes neither
the furthest failure nor what goes past a limit. -/
def Fresh (k : Nat) (c : Course) : Prop :=
  ∀ seen : List Nat, (∀ x ∈ seen, x < k) → (c.abridge true seen).Alike c

theorem Alike.refl (c : Course) : c.Alike c :=
  ⟨rfl, fun _ _ => rfl⟩

theorem Alike.next {d d' : Course} (h : c.Alike d) (h' : c'.Alike d') :
    (Course.next c c').Alike (.next d d') :=
  ⟨by rw [furthest_next, furthest_next, h.furthest, h'.furthest],
    fun limit others => by rw [pastLimit_next, pastLimit_next, h.pastLimit, h'.pastLimit]⟩

theorem pastLimit_attempt
    (h : ∀ limit others, c.pastLimit limit others = c'.pastLimit limit others)
    (limit others : Nat) : (attempt rule start failure c).pastLimit limit others =
      (attempt rule start failure c').pastLimit limit others := by
  cases hrule : rule.isCounted with
  | true => rw [pastLimit_counted hrule, pastLimit_counted hrule, h]
  | false => rw [pastLimit_uncounted hrule, pastLimit_uncounted hrule, h]

theorem Alike.attempt (h : c.Alike c') :
    (Course.attempt rule start failure c).Alike (.attempt rule start failure c') := by
  refine ⟨?_, pastLimit_attempt h.pastLimit⟩
  unfold Course.furthest
  rw [failures, failures, List.foldl_append, List.foldl_append]
  exact congrArg (fun best => List.foldl orFurther best _) h.furthest

theorem Plain.abridge (h : c.Plain) : c.abridge reuse seen = c := by
  have hnone := h.remembered
  clear h
  induction c generalizing seen with
  | nothing => rfl
  | next c c' ih ih' =>
      obtain ⟨hc, hc'⟩ := List.append_eq_nil_iff.mp hnone
      rw [Course.abridge, ih hc, ih' hc']
  | ahead c ih => rw [Course.abridge, ih hnone]
  | attempt rule start failure c ih =>
      rw [Course.remembered] at hnone
      split at hnone
      · cases hnone
      next hrule =>
        rw [abridge_attempt fun h => hrule ((Bool.and_eq_true _ _).mp h.1).2, ih hnone]

theorem Plain.pastLimit (h : c.Plain) : c.pastLimit limit others = none := by
  unfold Course.pastLimit
  rw [h.openings]
  rfl

theorem Plain.fresh (h : c.Plain) : c.Fresh k := by
  intro seen _
  rw [h.abridge]
  exact .refl c

/-- A limit that is passed stays passed if more rules are open around. -/
theorem pastLimit_eq_none_of_more (h : c.pastLimit limit (others + 1) = none) :
    c.pastLimit limit others = none := by
  induction c generalizing others with
  | nothing => rfl
  | next c c' ih ih' =>
      rw [pastLimit_next, Option.or_eq_none_iff] at h ⊢
      exact ⟨ih h.1, ih' h.2⟩
  | ahead c ih => exact ih h
  | attempt rule start failure c ih =>
      cases hrule : rule.isCounted with
      | false =>
          rw [pastLimit_uncounted hrule] at h ⊢
          exact ih h
      | true =>
          rw [pastLimit_counted hrule] at h ⊢
          split at h
          · cases h
          next hlimit =>
            rw [if_neg (by omega)]
            exact ih h

theorem Covers.refl (c : Course) : c.Covers c :=
  fun _ _ h => h

theorem Covers.trans {d : Course} (h : c.Covers c') (h' : c'.Covers d) : c.Covers d :=
  fun limit others hnone => h' limit others (h limit others hnone)

theorem Covers.attempt (h : c.Covers c') : (Course.attempt rule start failure c).Covers c' := by
  intro limit others hnone
  refine h limit others ?_
  cases hrule : rule.isCounted with
  | false => rwa [pastLimit_uncounted hrule] at hnone
  | true =>
      rw [pastLimit_counted hrule] at hnone
      split at hnone
      · cases hnone
      · exact pastLimit_eq_none_of_more hnone

theorem Covers.next_left {d : Course} (h : c.Covers d) : (Course.next c c').Covers d := by
  intro limit others hnone
  rw [pastLimit_next, Option.or_eq_none_iff] at hnone
  exact h limit others hnone.1

theorem Covers.next_right {d : Course} (h : c'.Covers d) : (Course.next c c').Covers d := by
  intro limit others hnone
  rw [pastLimit_next, Option.or_eq_none_iff] at hnone
  exact h limit others hnone.2

/-- Leaving something out goes past no further limit. -/
theorem covers_abridge (c : Course) (reuse : Bool) (seen : List Nat) :
    c.Covers (c.abridge reuse seen) := by
  intro limit others hnone
  induction c generalizing seen others with
  | nothing => rfl
  | next c c' ih ih' =>
      rw [pastLimit_next, Option.or_eq_none_iff] at hnone
      rw [Course.abridge, pastLimit_next, ih seen others hnone.1, ih' _ others hnone.2]
      rfl
  | ahead c ih => exact ih seen others hnone
  | attempt rule start failure c ih =>
      rw [Course.abridge]
      split
      · rfl
      · cases hrule : rule.isCounted with
        | false =>
            rw [pastLimit_uncounted hrule] at hnone ⊢
            exact ih seen others hnone
        | true =>
            rw [pastLimit_counted hrule] at hnone ⊢
            split at hnone
            · cases hnone
            next hlimit => rw [if_neg hlimit, ih seen _ hnone]

/-- What was gone before is gone again in the same way whatever else is known. -/
theorem abridge_eq_revisit (h : c.remembered ⊆ seen) : c.abridge true seen = c.revisit :=
  abridge_congr fun _ hx => ⟨fun _ => hx, fun _ => h hx⟩

theorem Fresh.mono (h : c.Fresh k') (hk : k ≤ k') : c.Fresh k :=
  fun seen hseen => h seen fun x hx => Nat.lt_of_lt_of_le (hseen x hx) hk

theorem Fresh.attempt (h : c.Fresh k) (hstart : k ≤ start) :
    (Course.attempt rule start failure c).Fresh k := by
  intro seen hseen
  rw [abridge_attempt fun hknown => Nat.not_lt.mpr hstart (hseen start hknown.2)]
  exact (h seen hseen).attempt

theorem Fresh.next (h : c.Fresh k) (hbefore : ∀ x ∈ c.remembered, x < k') (hk : k ≤ k')
    (h' : c'.Fresh k') : (Course.next c c').Fresh k := by
  intro seen hseen
  refine (h seen hseen).next (h' _ fun x hx => ?_)
  rcases List.mem_append.mp hx with hx | hx
  · exact hbefore x hx
  · exact Nat.lt_of_lt_of_le (hseen x hx) hk

theorem Fresh.next_plain (h : c.Fresh k) (h' : c'.Plain) : (Course.next c c').Fresh k := by
  intro seen hseen
  refine (h seen hseen).next ?_
  rw [h'.abridge]
  exact .refl c'

theorem Fresh.plain_next (h : c.Plain) (h' : c'.Fresh k) : (Course.next c c').Fresh k :=
  h.fresh.next (by rw [h.remembered]; exact List.forall_mem_nil _) (Nat.le_refl k) h'

/-- When a course is gone again, only the furthest failure may change. -/
theorem Fresh.abridge_again (h : c.Fresh k) (hsub : c'.remembered ⊆ c.remembered)
    (hcovers : c.Covers c') (hseen : ∀ x ∈ seen, x < k) :
    ((Course.next c c').abridge true seen).furthest = furtherOf c.furthest c'.revisit.furthest ∧
      ∀ limit others, ((Course.next c c').abridge true seen).pastLimit limit others =
        (Course.next c c').pastLimit limit others := by
  obtain ⟨hc, hlimit⟩ := h seen hseen
  have hrevisit : c'.abridge true (c.remembered ++ seen) = c'.revisit :=
    abridge_eq_revisit fun x hx => List.mem_append_left _ (hsub hx)
  rw [Course.abridge, hrevisit]
  refine ⟨by rw [furthest_next, hc], fun limit others => ?_⟩
  rw [pastLimit_next, pastLimit_next, hlimit]
  cases hnone : c.pastLimit limit others with
  | some opening => rfl
  | none =>
      have hnone' := hcovers limit others hnone
      have hrevisit' : c'.revisit.pastLimit limit others = none :=
        covers_abridge c' true _ limit others hnone'
      rw [hnone', hrevisit']

/-- A course that was gone before is gone again without a change, if it reports nothing further
then. -/
theorem Fresh.next_again (h : c.Fresh k) (hsub : c'.remembered ⊆ c.remembered)
    (hfurthest : furtherOf c.furthest c'.revisit.furthest = furtherOf c.furthest c'.furthest)
    (hcovers : c.Covers c') : (Course.next c c').Fresh k := by
  intro seen hseen
  obtain ⟨hagain, hlimit⟩ := h.abridge_again hsub hcovers hseen
  exact ⟨by rw [hagain, hfurthest, furthest_next], hlimit⟩

/-- What is gone again may report something else, if it is part of an attempt that fails further
on. -/
theorem Fresh.failed_again {r : Nat} (h : c.Fresh k) (hsub : c'.remembered ⊆ c.remembered)
    (hlexical : rule.isLexical = false) (hstart : k ≤ start)
    (hfurthest : furtherOf (furtherOf c.furthest c'.revisit.furthest) (some ⟨.rule rule, start, r⟩) =
      furtherOf (furtherOf c.furthest c'.furthest) (some ⟨.rule rule, start, r⟩))
    (hcovers : c.Covers c') : (Course.attempt rule start (some r) (.next c c')).Fresh k := by
  intro seen hseen
  obtain ⟨hagain, hlimit⟩ := h.abridge_again hsub hcovers hseen
  rw [abridge_attempt fun hknown => Nat.not_lt.mpr hstart (hseen start hknown.2)]
  refine ⟨?_, pastLimit_attempt hlimit⟩
  rw [furthest_failed hlexical, furthest_failed hlexical, hagain, hfurthest, furthest_next]

/-- How courses are put together one after another does not matter. -/
theorem Fresh.assoc {c'' : Course} (h : (Course.next c (.next c' c'')).Fresh k) :
    (Course.next (.next c c') c'').Fresh k := by
  intro seen hseen
  obtain ⟨hfurthest, hlimit⟩ := h seen hseen
  have hsame : c''.abridge true ((Course.next c c').remembered ++ seen) =
      c''.abridge true (c'.remembered ++ (c.remembered ++ seen)) := by
    refine abridge_congr fun x _ => ?_
    simp only [Course.remembered, List.mem_append]
    rw [or_left_comm, or_assoc]
  simp only [Course.abridge, furthest_next, pastLimit_next] at hfurthest hlimit
  refine ⟨?_, fun limit others => ?_⟩
  · simp only [Course.abridge, furthest_next, furtherOf_assoc, hsame]
    exact hfurthest
  · simp only [Course.abridge, pastLimit_next, Option.or_assoc, hsame]
    exact hlimit limit others

theorem revisit_attempt (hrule : rule.isRemembered = false) :
    (attempt rule start failure c).revisit = .attempt rule start failure c.revisit := by
  unfold revisit
  rw [abridge_attempt fun h => ?_, remembered_forgotten hrule]
  rw [hrule] at h
  cases h.1

theorem revisit_attempt_remembered (hrule : rule.isRemembered = true) :
    (attempt rule start failure c).revisit = .nothing := by
  unfold revisit
  refine abridge_attempt_known hrule ?_
  rw [remembered_attempt hrule]
  exact List.mem_cons_self

theorem revisit_next : (next c c').revisit = .next c.revisit c'.revisit := by
  unfold revisit
  rw [Course.abridge, Course.remembered]
  rw [abridge_eq_revisit (List.subset_append_left _ _),
    abridge_eq_revisit fun x hx => List.mem_append_right _ (List.mem_append_right _ hx)]
  rfl

theorem Plain.revisit (h : c.Plain) : c.revisit = c :=
  h.abridge

theorem Settled.matched (h : c.Settled) (hrule : rule.isRemembered = false) :
    (Course.attempt rule start none c).Settled := by
  unfold Settled
  rw [revisit_attempt hrule, furthest_matched, furthest_matched]
  exact h

theorem Settled.failed {r : Nat} (h : c.Settled) (hrule : rule.isRemembered = false)
    (hlexical : rule.isLexical = false) : (Course.attempt rule start (some r) c).Settled := by
  unfold Settled at h ⊢
  rw [revisit_attempt hrule, furthest_failed hlexical, furthest_failed hlexical, furtherOf_assoc,
    furtherOf_again, ← furtherOf_assoc, h]

/-- What is not gone again may stand before a course. -/
theorem Settled.behind (hrevisit : c.revisit = .nothing) (h : c'.Settled) :
    (Course.next c c').Settled := by
  unfold Settled
  rw [revisit_next, hrevisit, furthest_next, furthest_next, furthest_nothing, none_furtherOf,
    furtherOf_assoc, h]

/-- A course that goes another one, with quiet parts before and behind it. -/
inductive Surrounds : Course → Course → Prop where
  | refl (c : Course) : Surrounds c c
  | before {c c' d : Course} (hquiet : c.Quiet) (h : Surrounds c' d) : Surrounds (.next c c') d
  | behind {c c' d : Course} (h : Surrounds c d) (hquiet : c'.Quiet) : Surrounds (.next c c') d

namespace Surrounds

variable {d d' : Course}

theorem trans (h : c.Surrounds d) (h' : d.Surrounds d') : c.Surrounds d' := by
  induction h with
  | refl => exact h'
  | before hquiet _ ih => exact .before hquiet (ih h')
  | behind _ hquiet ih => exact .behind (ih h') hquiet

theorem failures (h : c.Surrounds d) : c.failures = d.failures := by
  induction h with
  | refl => rfl
  | before hquiet _ ih => rw [Course.failures, hquiet.failures, ih, List.nil_append]
  | behind _ hquiet ih => rw [Course.failures, hquiet.failures, ih, List.append_nil]

theorem furthest (h : c.Surrounds d) : c.furthest = d.furthest := by
  unfold Course.furthest
  rw [h.failures]

theorem remembered (h : c.Surrounds d) : c.remembered = d.remembered := by
  induction h with
  | refl => rfl
  | before hquiet _ ih => rw [Course.remembered, hquiet.remembered, ih, List.nil_append]
  | behind _ hquiet ih => rw [Course.remembered, hquiet.remembered, ih, List.append_nil]

theorem fresh (h : c.Surrounds d) (hd : d.Fresh k) : c.Fresh k := by
  induction h with
  | refl => exact hd
  | before hquiet _ ih => exact .plain_next hquiet.toPlain (ih hd)
  | behind _ hquiet ih => exact (ih hd).next_plain hquiet.toPlain

theorem covers (h : c.Surrounds d) : c.Covers d := by
  induction h with
  | refl => exact .refl _
  | before _ _ ih => exact ih.next_right
  | behind _ _ ih => exact ih.next_left

theorem covered (h : c.Surrounds d) : d.Covers c := by
  induction h with
  | refl => exact .refl _
  | before hquiet _ ih =>
      intro limit others hnone
      rw [pastLimit_next, hquiet.toPlain.pastLimit, ih limit others hnone]
      rfl
  | behind _ hquiet ih =>
      intro limit others hnone
      rw [pastLimit_next, hquiet.toPlain.pastLimit, ih limit others hnone]
      rfl

theorem plain (h : c.Surrounds d) (hd : d.Plain) : c.Plain := by
  induction h with
  | refl => exact hd
  | before hquiet _ ih => exact hquiet.toPlain.next (ih hd)
  | behind _ hquiet ih => exact (ih hd).next hquiet.toPlain

theorem revisit (h : c.Surrounds d) : c.revisit.Surrounds d.revisit := by
  induction h with
  | refl => exact .refl _
  | before hquiet _ ih =>
      rw [revisit_next, hquiet.toPlain.revisit]
      exact .before hquiet ih
  | behind _ hquiet ih =>
      rw [revisit_next, hquiet.toPlain.revisit]
      exact .behind ih hquiet

theorem settled (h : c.Surrounds d) (hd : d.Settled) : c.Settled := by
  unfold Settled
  rw [h.revisit.furthest, h.furthest]
  exact hd

end Surrounds

/-- A course that after attempts in vain at an offset goes another one. -/
inductive EndsIn (o : Nat) : Course → Course → Prop where
  | refl (c : Course) : EndsIn o c c
  | stuck {c c' d : Course} (hplain : c.Plain)
      (hfurthest : ∀ t ∈ c.furthest, t.start = o ∧ t.stop = o) (h : EndsIn o c' d) :
      EndsIn o (.next c c') d

namespace EndsIn

variable {o : Nat} {d : Course}

theorem trans {d' : Course} (h : EndsIn o c d) (h' : EndsIn o d d') : EndsIn o c d' := by
  induction h with
  | refl => exact h'
  | stuck hplain hfurthest _ ih => exact .stuck hplain hfurthest (ih h')

theorem remembered (h : EndsIn o c d) : c.remembered = d.remembered := by
  induction h with
  | refl => rfl
  | stuck hplain _ _ ih => rw [Course.remembered, hplain.remembered, ih, List.nil_append]

theorem fresh (h : EndsIn o c d) (hd : d.Fresh k) : c.Fresh k := by
  induction h with
  | refl => exact hd
  | stuck hplain _ _ ih => exact .plain_next hplain (ih hd)

theorem covers (h : EndsIn o c d) : c.Covers d := by
  induction h with
  | refl => exact .refl _
  | stuck _ _ _ ih => exact ih.next_right

theorem plain (h : EndsIn o c d) (hd : d.Plain) : c.Plain := by
  induction h with
  | refl => exact hd
  | stuck hplain _ _ ih => exact hplain.next (ih hd)

theorem furthest (h : EndsIn o c d) {t : Token} (ht : t ∈ c.furthest) :
    t ∈ d.furthest ∨ t.start = o ∧ t.stop = o := by
  induction h with
  | refl => exact .inl ht
  | stuck _ hfurthest _ ih =>
      rw [furthest_next] at ht
      rcases furtherOf_eq_some ht with ht | ht
      · exact .inr (hfurthest t ht)
      · exact ih ht

/-- What is tried in vain at an offset is overtaken by all that is further. -/
theorem furthest_eq (h : EndsIn o c d) {t : Token} (ht : d.furthest = some t) (hlt : o < t.stop) :
    c.furthest = some t := by
  induction h with
  | refl => exact ht
  | stuck _ hfurthest _ ih =>
      rw [furthest_next, ih ht]
      refine furtherOf_eq_right fun u hu => ?_
      have := hfurthest u hu
      omega

end EndsIn

end Course

end Sumscript
