import Sdapk.Atomicity
import Sdapk.Codec
import Sdapk.Commute
import Sdapk.Deletion
import Sdapk.DoctorEditing
import Sdapk.Editing
import Sdapk.Freshness
import Sdapk.Limits
import Sdapk.Linear
import Sdapk.Loadable
import Sdapk.LocalCollection
import Sdapk.LostUpdate
import Sdapk.Mirror
import Sdapk.Numbering
import Sdapk.Overlap
import Sdapk.Registration
import Sdapk.Sessions
import Sdapk.Signatures
import Sdapk.Twin
import Sdapk.Unlisted
