import Mathlib.Data.List.Basic

/-!
# Queues of typed messages

A queue is a list with the oldest message in front, and every message has a type.
`receive t` takes the oldest message of the type `t`, and `receive 0` the oldest one.
Seen by the messages of one type (`ofType`) the queue is a queue of its own: a message is
taken from its front, and what is sent or taken of another type does not touch it.
-/

namespace DemoClass

namespace MsgQueue

variable {μ : Type}

/-- The messages of the type `t`. -/
def ofType (typ : μ → ℕ) (t : ℕ) (queue : List μ) : List μ := queue.filter fun m => typ m = t

/-- Whether a receiver that gives the type `t` asks for a message. -/
def wanted (typ : μ → ℕ) (t : ℕ) (m : μ) : Bool := t = 0 ∨ typ m = t

/-- The oldest message that is asked for, and the messages that stay in the queue. -/
def receive (typ : μ → ℕ) (t : ℕ) (queue : List μ) : Option (μ × List μ) :=
  (queue.find? (wanted typ t)).map fun m => (m, queue.eraseP (wanted typ t))

variable {typ : μ → ℕ} {t u : ℕ} {m : μ} {queue rest : List μ}

@[simp] lemma ofType_nil : ofType typ t [] = [] := rfl

@[simp] lemma ofType_append (queue rest : List μ) :
    ofType typ t (queue ++ rest) = ofType typ t queue ++ ofType typ t rest := List.filter_append ..

lemma ofType_cons_self (h : typ m = t) (queue : List μ) :
    ofType typ t (m :: queue) = m :: ofType typ t queue := by simp [ofType, h]

lemma ofType_cons_ne (h : typ m ≠ t) (queue : List μ) :
    ofType typ t (m :: queue) = ofType typ t queue := by simp [ofType, h]

lemma mem_ofType : m ∈ ofType typ t queue ↔ m ∈ queue ∧ typ m = t := by simp [ofType]

/-- The messages before the one that is taken are not asked for. -/
lemma receive_split (h : receive typ t queue = some (m, rest)) :
    ∃ us vs, queue = us ++ m :: vs ∧ rest = us ++ vs ∧ (t = 0 ∨ typ m = t) ∧
      ∀ n ∈ us, wanted typ t n = false := by
  simp only [receive, Option.map_eq_some_iff, Prod.mk.injEq] at h
  obtain ⟨m, hfind, rfl, rfl⟩ := h
  obtain ⟨hm, us, vs, rfl, hus⟩ := List.find?_eq_some_iff_append.1 hfind
  have hnot : ∀ n ∈ us, wanted typ t n = false := fun n hn => by simpa using hus n hn
  refine ⟨us, vs, rfl, ?_, by simpa [wanted] using hm, hnot⟩
  rw [List.eraseP_append_right _ (fun n hn => by simp [hnot n hn]), List.eraseP_cons_of_pos hm]

/-- With the type `0` the message at the front is taken. -/
lemma receive_zero (h : receive typ 0 queue = some (m, rest)) : queue = m :: rest := by
  obtain ⟨us, vs, rfl, rfl, -, hus⟩ := receive_split h
  cases us with
  | nil => rfl
  | cons n us =>
      have hn := hus n List.mem_cons_self
      simp [wanted] at hn

/-- Of a type the message at the front is taken. -/
lemma receive_ofType (ht : 0 < t) (h : receive typ t queue = some (m, rest)) :
    ofType typ t queue = m :: ofType typ t rest := by
  obtain ⟨us, vs, rfl, rfl, hm, hus⟩ := receive_split h
  have hnone : ofType typ t us = [] := by
    rw [ofType, List.filter_eq_nil_iff]
    intro n hn
    have hwant := hus n hn
    simp only [wanted, decide_eq_false_iff_not, not_or] at hwant
    simpa using hwant.2
  rw [ofType_append, ofType_append, hnone, List.nil_append, List.nil_append]
  exact ofType_cons_self (hm.resolve_left (by omega)) vs

/-- The messages of other types stay. -/
lemma receive_ofType_ne (h : receive typ t queue = some (m, rest)) (hne : typ m ≠ u) :
    ofType typ u rest = ofType typ u queue := by
  obtain ⟨us, vs, rfl, rfl, -, -⟩ := receive_split h
  rw [ofType_append, ofType_append, ofType_cons_ne hne]

/-- What is taken was in front of what stays, among the messages of any type. -/
lemma receive_books (h : receive typ t queue = some (m, rest)) (u : ℕ) :
    ofType typ u queue = ofType typ u [m] ++ ofType typ u rest := by
  by_cases hm : typ m = u
  · have hcons : ofType typ u queue = m :: ofType typ u rest := by
      rcases Nat.eq_zero_or_pos t with rfl | ht
      · rw [receive_zero h, ofType_cons_self hm]
      · obtain ⟨-, -, -, -, hwant, -⟩ := receive_split h
        obtain rfl : t = u := (hwant.resolve_left (by omega)).symm.trans hm
        exact receive_ofType ht h
    rw [hcons, ofType_cons_self hm]
    rfl
  · rw [receive_ofType_ne h hm, ofType_cons_ne hm, ofType_nil, List.nil_append]

/-- The same messages of every type are the same messages. -/
lemma perm_of_ofType {queue' : List μ} (h : ∀ t, ofType typ t queue = ofType typ t queue') :
    queue.Perm queue' := by
  classical
  refine List.perm_iff_count.2 fun m => ?_
  have hcount : ∀ qs : List μ, qs.count m = (ofType typ (typ m) qs).count m := fun qs =>
    (List.count_filter (by simp)).symm
  rw [hcount queue, hcount queue', h]

/-- The message that is taken and those that stay are those that were there. -/
lemma receive_perm (h : receive typ t queue = some (m, rest)) : queue.Perm (m :: rest) := by
  obtain ⟨us, vs, rfl, rfl, -, -⟩ := receive_split h
  exact List.perm_middle

/-- A message that is the only one of its type is taken, wherever it is. -/
lemma exists_receive (h : ofType typ t queue = [m]) (ht : 0 < t) :
    ∃ rest, receive typ t queue = some (m, rest) := by
  have hm : m ∈ ofType typ t queue := h ▸ List.mem_singleton_self m
  have hfind : (queue.find? (wanted typ t)).isSome := by
    rw [List.find?_isSome]
    exact ⟨m, (mem_ofType.1 hm).1, by simp [wanted, (mem_ofType.1 hm).2]⟩
  obtain ⟨n, hn⟩ := Option.isSome_iff_exists.1 hfind
  have hr : receive typ t queue = some (n, queue.eraseP (wanted typ t)) := by
    rw [receive, hn, Option.map_some]
  have hone := receive_ofType ht hr
  rw [h] at hone
  obtain ⟨rfl, -⟩ := List.cons.inj hone
  exact ⟨_, hr⟩

lemma receive_subset (h : receive typ t queue = some (m, rest)) : rest ⊆ queue := by
  obtain ⟨us, vs, rfl, rfl, -, -⟩ := receive_split h
  exact fun n hn => by
    rcases List.mem_append.1 hn with hn | hn
    · exact List.mem_append_left _ hn
    · exact List.mem_append_right _ (List.mem_cons_of_mem m hn)

end MsgQueue

end DemoClass
