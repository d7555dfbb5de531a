import Mathlib.Logic.Function.Basic
import Mathlib.Data.List.Basic

-- A finite map with its keys listed, so that its size is known. The order of the
-- keys carries no meaning.
structure UnorderedMap (κ ν : Type*) where
  find : κ → Option ν
  keys : List κ
  nodup : keys.Nodup
  present : ∀ k, k ∈ keys ↔ (find k).isSome

namespace UnorderedMap
variable {κ ν : Type*}

def size (m : UnorderedMap κ ν) : ℕ := m.keys.length

def empty : UnorderedMap κ ν := ⟨fun _ => none,[],List.nodup_nil,by simp⟩

def mapValues (m : UnorderedMap κ ν) (f : ν → ν) : UnorderedMap κ ν :=
  ⟨fun k => (m.find k).map f,m.keys,m.nodup,by simp [m.present]⟩

@[simp] theorem find_empty (k : κ) : (empty : UnorderedMap κ ν).find k = none := rfl
@[simp] theorem size_empty : (empty : UnorderedMap κ ν).size = 0 := rfl
@[simp] theorem find_mapValues (m : UnorderedMap κ ν) (f : ν → ν) (k : κ) :
    (m.mapValues f).find k = (m.find k).map f := rfl
@[simp] theorem size_mapValues (m : UnorderedMap κ ν) (f : ν → ν) : (m.mapValues f).size = m.size := rfl

variable [DecidableEq κ]

def insert (m : UnorderedMap κ ν) (k : κ) (v : ν) : UnorderedMap κ ν where
  find := Function.update m.find k (some v)
  keys := if (m.find k).isSome then m.keys else k :: m.keys
  nodup := by
    split
    · exact m.nodup
    · rename_i absent
      exact List.nodup_cons.mpr ⟨mt (m.present k).mp absent,m.nodup⟩
  present := by
    intro j
    by_cases same : j = k
    · subst same
      split <;> simp_all [m.present]
    · split <;> simp [same,m.present]

@[simp] theorem find_insert (m : UnorderedMap κ ν) (k j : κ) (v : ν) :
    (m.insert k v).find j = if j = k then some v else m.find j := Function.update_apply _ _ _ _

theorem find_insert_self (m : UnorderedMap κ ν) (k : κ) (v : ν) : (m.insert k v).find k = some v := by simp

theorem insert_all {P : ν → Prop} {m : UnorderedMap κ ν} (all : ∀ j w, m.find j = some w → P w) (new : P v) (k : κ) :
    ∀ j w, (m.insert k v).find j = some w → P w := by
  intro j w found
  by_cases own : j = k
  · rw [find_insert,if_pos own] at found
    exact Option.some.inj found ▸ new
  · rw [find_insert,if_neg own] at found
    exact all j w found

theorem size_insert_absent (m : UnorderedMap κ ν) (v : ν) (absent : m.find k = none) :
    (m.insert k v).size = m.size + 1 := by simp [size,insert,absent]

end UnorderedMap
