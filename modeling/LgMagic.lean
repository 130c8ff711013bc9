import LgMagic.Lib.DecimalStability
import LgMagic.Lib.Printf
import LgMagic.Lib.Posix
import LgMagic.Keymap
import LgMagic.Lib.CNum
import LgMagic.Daemon.StateStore
import LgMagic.Setup
import LgMagic.Daemon.MacIdentity
import LgMagic.Evdev
import LgMagic.Daemon.HeldKeys
import LgMagic.Daemon.PollDispatch
import LgMagic.Daemon.Heal
import LgMagic.Daemon.Grab
import LgMagic.Lib.ReadBack
import LgMagic.Pairing.Order
import LgMagic.Daemon.Distinct
import LgMagic.Daemon.LoadBack
import LgMagic.Daemon.SharedKeys
import LgMagic.Daemon.FailedLoad
import LgMagic.Daemon.SetProfile
import LgMagic.Json.RoundTrip
import LgMagic.DBus.Matching
import LgMagic.DBus.Bounds
import LgMagic.Profiles.Codec
import LgMagic.Toml.Reserialise
import LgMagic.Toml.Document
import LgMagic.Toml.Lookup
import LgMagic.DBus.Address
import LgMagic.DBus.Failures
import LgMagic.Daemon.Descriptors
import LgMagic.UserConfig.Migrate
import LgMagic.Json.Beyond
import LgMagic.Airmouse.Gate
import LgMagic.Daemon.Wheel
import LgMagic.Daemon.PointerRange
import LgMagic.Kernel.PointerRange
import LgMagic.Evdev.Frames
import LgMagic.Calib.Save
import LgMagic.Csv.RoundTrip
import LgMagic.Csv.Acceptance
import LgMagic.Madgwick.Defined
import LgMagic.Daemon.StartTime
import LgMagic.Lm.Gauss
import LgMagic.Lm.Gradient
import LgMagic.Lm.Descent
import LgMagic.Calib.Calib2bin
import LgMagic.Setup.Blob
import LgMagic.Remote.Wheel
import LgMagic.Remote.Samples
import LgMagic.Hidraw
import LgMagic.Madgwick.Heading
import LgMagic.Cube.Picture
import LgMagic.Kernel.Disabled
import LgMagic.Daemon.MainLoop
import LgMagic.DBus.Session
