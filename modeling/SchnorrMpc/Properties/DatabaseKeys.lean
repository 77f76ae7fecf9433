import SchnorrMpc.Properties.ApprovalQueue

/-!
# What a database key identifies

A key is the digest of the public key, the data and the status, one after the
other. Nothing says where the public key ends, so two requests that cut one
string at different places share their records. The status is the end of the
string and is never mistaken for the end of the data.
-/
namespace SchnorrMpc

open Lib

/-- Equal strings under the digest mean equal requests, and no key is that of the list. -/
def KeysIdentify (env : Env) (d d' : SendData) (status status' : Status) : Prop :=
  (keyString d status = keyString d' status' →
    d.pkBytes = d'.pkBytes ∧ d.data = d'.data ∧ status = status') ∧
  buildKeyFromData env d status ≠ mpcApprovingKeys ∧
  buildKeyFromData env d' status' ≠ mpcApprovingKeys

/-- Keys identify requests exactly if no two requests cut one string at different places. -/
theorem keysIdentify_iff (env : Env) (d d' : SendData) (status status' : Status) :
    KeysIdentify env d d' status status' ↔
      (d.pkBytes ++ d.data = d'.pkBytes ++ d'.data → status = status' →
        d.pkBytes.length = d'.pkBytes.length) := by
  constructor
  · rintro ⟨identifies, -⟩ same sameStatus
    obtain ⟨pk, -⟩ := identifies ((keyString_eq_iff d d' status status').mpr ⟨same, sameStatus⟩)
    rw [pk]
  · intro framed
    refine ⟨fun strings => ?_, buildKeyFromData_ne_list env d status,
      buildKeyFromData_ne_list env d' status'⟩
    obtain ⟨same, sameStatus⟩ := (keyString_eq_iff d d' status status').mp strings
    obtain ⟨pk, data⟩ := List.append_inj same (framed same sameStatus)
    exact ⟨pk, data, sameStatus⟩

theorem addOneValidData_shadowed (venv : ValEnv) (db : Db) {d d' : SendData}
    (same : d.pkBytes ++ d.data = d'.pkBytes ++ d'.data) :
    ((addOneValidData venv d').run Db.handle ((addOneValidData venv d).run Db.handle db).2).1 =
      .err (.new (utf8 "has in approved db")) := by
  have key : buildKeyFromData venv.toEnv d' .approved =
      buildKeyFromData venv.toEnv d .approved := by
    rw [buildKeyFromData, buildKeyFromData, (keyString_eq_iff d' d .approved .approved).mpr
      ⟨same.symm, rfl⟩]
  rw [run_addOneValidData, run_addOneValidData, key]
  by_cases approved : (db (buildKeyFromData venv.toEnv d .approved)).isSome
  · rw [if_pos approved, if_pos approved]
  · rw [if_neg approved, if_pos (by simp)]

/-- A shorter key with more data, and a longer one with less: the second request is refused as
approved although nobody has approved it. -/
theorem cut_elsewhere_collides :
    let d : SendData := ⟨[4, 1], [2, 3], []⟩
    let d' : SendData := ⟨[4, 1, 2], [3], []⟩
    keyString d .approved = keyString d' .approved ∧ d.pkBytes ≠ d'.pkBytes ∧ d.data ≠ d'.data ∧
      ((addOneValidData queueEnv d).run Db.handle .empty).1 = .ok () ∧
      ((addOneValidData queueEnv d').run Db.handle
        ((addOneValidData queueEnv d).run Db.handle .empty).2).1 =
          .err (.new (utf8 "has in approved db")) := by
  refine ⟨?_, ?_, ?_, ?_, ?_⟩ <;> decide +kernel

end SchnorrMpc
