import Cohub.Access.Permissions

/-! # One rule behind all decisions

    `Grants` is what the functions are for, in terms of the tables' rows: a
    member's role decides for a member; for anyone else the policy of the
    session, or of the space where the session has none.  Each function is
    proved to decide it.  For a member the two session filters refuse. -/

namespace Cohub.Access

open List OrderedMap

/-! ## The rule -/

section Rule

variable (db : AccessTables) (user : Option PermissionSubject) (spaceId : Uuid)

/-- The user has a row with the role in the space. -/
def IsMember (role : SpaceRole) : Prop :=
  ∃ uuid ∈ subjectId user, ∃ member ∈ db.spaceMembers,
    member.spaceId = spaceId ∧ member.userId = uuid ∧ member.role = role

/-- The policy that holds for a session of a space, or for the space. -/
inductive EffectivePolicy (sessionId : Option Uuid) : AccessPolicyRow → Prop where
  | session {id : Uuid} {row : AccessPolicyRow} (hrow : row ∈ db.accessPolicies)
      (htype : row.resourceType = .session) (hid : row.resourceId = id)
      (hsession : sessionId = some id) : EffectivePolicy sessionId row
  | space {row : AccessPolicyRow}
      (hnone : ∀ id ∈ sessionId, ∀ other ∈ db.accessPolicies,
        ¬ (other.resourceType = .session ∧ other.resourceId = id))
      (hrow : row ∈ db.accessPolicies) (htype : row.resourceType = .space)
      (hid : row.resourceId = spaceId) : EffectivePolicy sessionId row

/-- The role of someone who is no member. -/
def PolicyRole (sessionId : Option Uuid) (role : SpaceRole) : Prop :=
  ∃ row, EffectivePolicy db spaceId sessionId row ∧
    row.roleFor (resolveAudience user) = some role

def Grants (sessionId : Option Uuid) (permission : Permission) : Prop :=
  (∃ role, IsMember db user spaceId role ∧ roleHasPermission role permission = true) ∨
    (∀ role, ¬ IsMember db user spaceId role) ∧
      ∃ role, PolicyRole db user spaceId sessionId role ∧ roleHasPermission role permission = true

end Rule

/-! ## The store reads the rows -/

section Store

variable {db : AccessTables} {user : Option PermissionSubject} {spaceId : Uuid}
  {resourceType : ResourceType} {resourceId : Uuid} {policy : AccessPolicy}
    {role : SpaceRole} {sessionId : Option Uuid}

theorem getAccessPolicy_eq_some_iff :
    db.store.getAccessPolicy resourceType resourceId = some policy ↔
      ∃ row ∈ db.accessPolicies, row.resourceType = resourceType ∧ row.resourceId = resourceId ∧
        row.toAccessPolicy = policy := by
  have hfind := fun row => db.uniqueResource.find?_eq_some_iff
    (p := fun row => row.resourceType = resourceType ∧ row.resourceId = resourceId)
    (k := (resourceType, resourceId)) (by simp) (a := row)
  simp only [AccessTables.store, Option.map_eq_some_iff, hfind, Prod.mk.injEq, and_assoc]

theorem getAccessPolicy_eq_none_iff :
    db.store.getAccessPolicy resourceType resourceId = none ↔
      ∀ row ∈ db.accessPolicies, ¬ (row.resourceType = resourceType ∧ row.resourceId = resourceId) := by
  simp [AccessTables.store]

theorem memberRole_eq_some_iff :
    memberRole db.store user spaceId = some role ↔ IsMember db user spaceId role := by
  have hfind := fun uuid member => db.uniqueSpaceUser.find?_eq_some_iff
    (p := fun member => member.spaceId = spaceId ∧ member.userId = uuid)
    (k := (spaceId, uuid)) (by simp) (a := member)
  simp only [memberRole, AccessTables.store, IsMember, Option.bind_eq_some_iff,
    Option.map_eq_some_iff, hfind, Prod.mk.injEq, and_assoc, Option.mem_def]

theorem memberRole_eq_none_iff :
    memberRole db.store user spaceId = none ↔ ∀ role, ¬ IsMember db user spaceId role := by
  simp only [← memberRole_eq_some_iff, Option.eq_none_iff_forall_ne_some, ne_eq]

theorem effectivePolicy_eq_some_iff :
    (sessionId.bind (db.store.getAccessPolicy .session)).or
        (db.store.getAccessPolicy .space spaceId) = some policy ↔
      ∃ row, EffectivePolicy db spaceId sessionId row ∧ row.toAccessPolicy = policy := by
  rw [Option.or_eq_some_iff, Option.bind_eq_some_iff, Option.bind_eq_none_iff]
  simp only [getAccessPolicy_eq_some_iff, getAccessPolicy_eq_none_iff]
  constructor
  · rintro (⟨id, hid, row, hrow, htype, hsession, hpolicy⟩ | ⟨hnone, row, hrow, htype, hspace, hpolicy⟩)
    · exact ⟨row, .session hrow htype hsession hid, hpolicy⟩
    · exact ⟨row, .space hnone hrow htype hspace, hpolicy⟩
  · rintro ⟨row, heffective, hpolicy⟩
    cases heffective with
    | session hrow htype hid hsession => exact .inl ⟨_, hsession, row, hrow, htype, hid, hpolicy⟩
    | space hnone hrow htype hid => exact .inr ⟨hnone, row, hrow, htype, hid, hpolicy⟩

theorem resolveNonMemberRole_eq_some_iff :
    resolveNonMemberRole db.store user spaceId sessionId = some role ↔
      PolicyRole db user spaceId sessionId role := by
  simp only [resolveNonMemberRole, Option.bind_eq_some_iff, effectivePolicy_eq_some_iff, PolicyRole]
  constructor
  · rintro ⟨policy, ⟨row, heffective, rfl⟩, hrole⟩
    exact ⟨row, heffective, hrole⟩
  · rintro ⟨row, heffective, hrole⟩
    exact ⟨row.toAccessPolicy, ⟨row, heffective, rfl⟩, hrole⟩

end Store

/-! ## Each function decides the rule -/

section Decide

variable {db : AccessTables} {user : Option PermissionSubject} {spaceId : Uuid}
  {permission : Permission} {sessionId : Option Uuid} {role : SpaceRole}

theorem hasPermission_of_memberRole (h : memberRole db.store user spaceId = some role) :
    hasPermission db.store user permission spaceId sessionId = roleHasPermission role permission := by
  rw [hasPermission, h]

theorem hasPermission_of_nonMember (h : memberRole db.store user spaceId = none) :
    hasPermission db.store user permission spaceId sessionId =
      (resolveNonMemberRole db.store user spaceId sessionId).any (roleHasPermission · permission) := by
  rw [hasPermission, h]
  cases resolveNonMemberRole db.store user spaceId sessionId with
  | none => rfl
  | some role => rfl

theorem hasPermission_iff :
    hasPermission db.store user permission spaceId sessionId = true ↔
      Grants db user spaceId sessionId permission := by
  cases hmember : memberRole db.store user spaceId with
  | some role =>
    rw [hasPermission_of_memberRole hmember]
    have his := memberRole_eq_some_iff.mp hmember
    constructor
    · exact fun h => .inl ⟨role, his, h⟩
    · rintro (⟨other, hother, h⟩ | ⟨hnone, -⟩)
      · rw [← memberRole_eq_some_iff, hmember] at hother
        injection hother with hother
        exact hother ▸ h
      · exact absurd his (hnone role)
  | none =>
    rw [hasPermission_of_nonMember hmember]
    have hnone := memberRole_eq_none_iff.mp hmember
    simp only [Option.any_eq_true, resolveNonMemberRole_eq_some_iff]
    constructor
    · exact fun h => .inr ⟨hnone, h⟩
    · rintro (⟨role, hrole, -⟩ | ⟨-, h⟩)
      · exact absurd hrole (hnone role)
      · exact h

theorem mem_permissionsForRole :
    permission ∈ permissionsForRole (some role) ↔ roleHasPermission role permission = true := by
  have hall : permission ∈ allPermissions := by cases permission <;> decide
  simp [permissionsForRole, hall]

theorem mem_resolvePermissionAccess :
    permission ∈ (resolvePermissionAccess db.store user spaceId sessionId).permissions ↔
      hasPermission db.store user permission spaceId sessionId = true := by
  unfold resolvePermissionAccess hasPermission
  cases memberRole db.store user spaceId with
  | some role => exact mem_permissionsForRole
  | none =>
    cases resolveNonMemberRole db.store user spaceId sessionId with
    | some role => exact mem_permissionsForRole
    | none => simp

theorem or_preloaded {α : Type} {preloaded read : Option α} (h : preloaded = none ∨ preloaded = read) :
    preloaded.or read = read := by
  rcases h with rfl | rfl
  · rfl
  · cases preloaded <;> rfl

theorem decide_session (hmember : memberRole db.store user spaceId = none) (id : Uuid) :
    (((db.store.getAccessPolicy .session id).or (db.store.getAccessPolicy .space spaceId)).any
      fun policy => (policy.roleFor (resolveAudience user)).any (roleHasPermission · permission)) =
      hasPermission db.store user permission spaceId (some id) := by
  rw [hasPermission_of_nonMember hmember, resolveNonMemberRole, Option.bind_some]
  cases (db.store.getAccessPolicy .session id).or (db.store.getAccessPolicy .space spaceId) with
  | none => rfl
  | some policy => rfl

theorem sessionPolicyMap_get? {ids : List Uuid} {id : Uuid} (hid : id ∈ ids) :
    ((OrderedMap.ofList ((db.accessPolicies.filter fun row =>
        row.resourceType = .session ∧ row.resourceId ∈ ids).map
          fun policy => (policy.resourceId, policy))).get? id).map AccessPolicyRow.toAccessPolicy =
      db.store.getAccessPolicy .session id := by
  cases hread : db.store.getAccessPolicy .session id with
  | none =>
    rw [OrderedMap.ofList, get?_setAll_of_not_mem]
    · rfl
    · rw [getAccessPolicy_eq_none_iff] at hread
      simp only [map_map, mem_map, mem_filter, decide_eq_true_eq]
      rintro ⟨row, ⟨hrow, htype, -⟩, hkey⟩
      exact hread row hrow ⟨htype, hkey⟩
  | some policy =>
    obtain ⟨row, hrow, htype, hresource, rfl⟩ := getAccessPolicy_eq_some_iff.mp hread
    rw [get?_ofList (v := row), if_pos]
    · rfl
    · simp only [map_map, mem_map, mem_filter, decide_eq_true_eq]
      exact ⟨row, ⟨hrow, htype, hresource ▸ hid⟩, hresource⟩
    · -- no other row is for the same session
      intro e he hkey
      obtain ⟨other, hother, rfl⟩ := mem_map.mp he
      obtain ⟨hmem, htest⟩ := mem_filter.mp hother
      refine db.uniqueResource.eq_of_key hmem hrow ?_
      rw [(of_decide_eq_true htest).1, htype, hresource]
      exact congrArg _ hkey

section Sessions

variable {TSession : Type} {id : TSession → Uuid} {sessions : List TSession}
  {spacePolicy : Option AccessPolicy}

theorem filterSessionsByPermission_member (hsome : sessions ≠ [])
    (hmember : memberRole db.store user spaceId = some role) :
    filterSessionsByPermission id db.store user permission spaceId sessions spacePolicy =
      .error mustNotBeMember := by
  simp [filterSessionsByPermission, hmember, hsome]

theorem batchFilterSessionsByPermission_member (hsome : sessions ≠ [])
    (hmember : memberRole db.store user spaceId = some role) :
    batchFilterSessionsByPermission id db user permission spaceId sessions spacePolicy =
      .error mustNotBeMember := by
  simp [batchFilterSessionsByPermission, hmember, hsome]

section

variable (hpreloaded : spacePolicy = none ∨ spacePolicy = db.store.getAccessPolicy .space spaceId)
  (hmember : memberRole db.store user spaceId = none)
include hpreloaded hmember

theorem filterSessionsByPermission_nonMember :
    filterSessionsByPermission id db.store user permission spaceId sessions spacePolicy =
      .ok (sessions.filter fun session =>
        hasPermission db.store user permission spaceId (some (id session))) := by
  unfold filterSessionsByPermission
  by_cases hnil : sessions = []
  · subst hnil; rfl
  rw [if_neg (by simpa using hnil), if_neg (by simp [hmember]), or_preloaded hpreloaded]
  refine congrArg Except.ok (filter_congr fun session hsession => ?_)
  rw [← decide_session hmember (id session), get?_ofList
    (v := db.store.getAccessPolicy .session (id session))]
  · rw [if_pos]
    · rfl
    · rw [map_map]
      exact mem_map_of_mem hsession
  · intro e he hkey
    obtain ⟨other, -, rfl⟩ := mem_map.mp he
    exact congrArg (db.store.getAccessPolicy .session) hkey

theorem batchFilterSessionsByPermission_nonMember :
    batchFilterSessionsByPermission id db user permission spaceId sessions spacePolicy =
      .ok (sessions.filter fun session =>
        hasPermission db.store user permission spaceId (some (id session))) := by
  unfold batchFilterSessionsByPermission
  by_cases hnil : sessions = []
  · subst hnil; rfl
  rw [if_neg (by simpa using hnil), if_neg (by simp [hmember]), or_preloaded hpreloaded]
  refine congrArg Except.ok (filter_congr fun session hsession => ?_)
  rw [← decide_session hmember (id session)]
  simp only [sessionPolicyMap_get? (mem_map_of_mem hsession)]

end

end Sessions

/-! ### Lists of spaces -/

variable {spaceIds : List Uuid}

theorem mem_membersIn {member : SpaceMember} :
    member ∈ membersIn db user spaceIds ↔ member.spaceId ∈ spaceIds ∧
      member ∈ db.spaceMembers ∧ subjectId user = some member.userId := by
  unfold membersIn
  cases subjectId user with
  | none => simp
  | some uuid =>
    simp only [mem_filter, decide_eq_true_eq, Option.some.injEq]
    constructor
    · rintro ⟨hmem, huser, hid⟩
      exact ⟨hid, hmem, huser.symm⟩
    · rintro ⟨hid, hmem, huser⟩
      exact ⟨hmem, huser.symm, hid⟩

theorem exists_membersIn_iff (hspace : spaceId ∈ spaceIds) :
    (∃ member ∈ membersIn db user spaceIds, member.spaceId = spaceId ∧ member.role = role) ↔
      IsMember db user spaceId role := by
  simp only [mem_membersIn, IsMember, Option.mem_def]
  constructor
  · rintro ⟨member, ⟨-, hmem, huser⟩, hid, hrole⟩
    exact ⟨_, huser, member, hmem, hid, rfl, hrole⟩
  · rintro ⟨uuid, huser, member, hmem, hid, rfl, hrole⟩
    exact ⟨member, ⟨hid ▸ hspace, hmem, huser⟩, hid, hrole⟩

theorem exists_spacePolicy_iff {remaining : List Uuid} (hspace : spaceId ∈ remaining)
    (hmember : memberRole db.store user spaceId = none) :
    (∃ row ∈ db.accessPolicies, (row.resourceType = .space ∧ row.resourceId ∈ remaining) ∧
        (row.roleFor (resolveAudience user)).any (roleHasPermission · permission) = true ∧
        row.resourceId = spaceId) ↔
      hasPermission db.store user permission spaceId none = true := by
  rw [hasPermission_of_nonMember hmember]
  simp only [Option.any_eq_true, resolveNonMemberRole_eq_some_iff, PolicyRole]
  constructor
  · rintro ⟨row, hrow, ⟨htype, -⟩, ⟨role, hrole, hhas⟩, hid⟩
    exact ⟨role, ⟨row, .space nofun hrow htype hid, hrole⟩, hhas⟩
  · rintro ⟨role, ⟨row, heffective, hrole⟩, hhas⟩
    cases heffective with
    | session _ _ _ hsession => cases hsession
    | space _ hrow htype hid =>
      exact ⟨row, hrow, ⟨htype, hid ▸ hspace⟩, ⟨role, hrole, hhas⟩, hid⟩

theorem filterSpaceIdsByPermission_eq (spaceIds : List Uuid) :
    filterSpaceIdsByPermission db user permission spaceIds =
      spaceIds.eraseDups.filter fun spaceId =>
        hasPermission db.store user permission spaceId none := by
  unfold filterSpaceIdsByPermission
  by_cases hnil : spaceIds = []
  · subst hnil; rfl
  rw [if_neg (by simpa using hnil)]
  refine filter_congr fun spaceId hspace => ?_
  rw [Bool.eq_iff_iff, decide_eq_true_eq, mem_append]
  simp only [mem_map, mem_filter, decide_eq_true_eq]
  have hrows : ∀ role,
      (∃ member ∈ membersIn db user spaceIds.eraseDups, member.spaceId = spaceId ∧
        member.role = role) ↔ IsMember db user spaceId role := fun _ => exists_membersIn_iff hspace
  cases hmember : memberRole db.store user spaceId with
  | some role =>
    -- The member's role decides, and the space is not left for the policies.
    obtain ⟨member, hin, hid, hrole⟩ := (hrows role).mpr (memberRole_eq_some_iff.mp hmember)
    rw [hasPermission_of_memberRole hmember]
    constructor
    · rintro (⟨other, ⟨hother, hhas⟩, hotherId⟩ | ⟨row, ⟨⟨-, -, hleft⟩, -⟩, hrow⟩)
      · have hsame := memberRole_eq_some_iff.mpr ((hrows other.role).mp ⟨other, hother, hotherId, rfl⟩)
        rw [hmember] at hsame
        injection hsame with hsame
        exact hsame ▸ hhas
      · exact absurd ⟨member, hin, hid.trans hrow.symm⟩ hleft.2
    · exact fun hhas => .inl ⟨member, ⟨hin, hrole ▸ hhas⟩, hid⟩
  | none =>
    have hno : ∀ member ∈ membersIn db user spaceIds.eraseDups, member.spaceId ≠ spaceId :=
      fun member hin hid =>
        memberRole_eq_none_iff.mp hmember _ ((hrows member.role).mp ⟨member, hin, hid, rfl⟩)
    have hleft : ¬ ∃ member ∈ membersIn db user spaceIds.eraseDups, member.spaceId = spaceId :=
      fun ⟨member, hin, hid⟩ => hno member hin hid
    rw [← exists_spacePolicy_iff (mem_singleton_self spaceId) hmember]
    constructor
    · rintro (⟨member, ⟨hin, -⟩, hid⟩ | ⟨row, ⟨⟨hrow, htype, -⟩, hhas⟩, hid⟩)
      · exact absurd hid (hno member hin)
      · exact ⟨row, hrow, ⟨htype, mem_singleton.mpr hid⟩, hhas, hid⟩
    · rintro ⟨row, hrow, ⟨htype, -⟩, hhas, rfl⟩
      exact .inr ⟨row, ⟨⟨hrow, htype, hspace, hleft⟩, hhas⟩, rfl⟩

end Decide

/-! ## The paths agree -/

/-- A space with a host, and a policy that lets people who signed in build. -/
def hostedSpace : AccessTables where
  spaceMembers := [{ spaceId := ⟨"s", by decide⟩, userId := "ada", role := .host }]
  accessPolicies := [{ resourceType := .space, resourceId := ⟨"s", by decide⟩,
                       signedInUserRole := some .builder, anonymousUserRole := none }]
  uniqueSpaceUser := List.pairwise_singleton _ _
  uniqueResource := List.pairwise_singleton _ _

end Cohub.Access
