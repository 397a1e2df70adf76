import Signet.Der.Oid

/-!
# Object identifiers of certificates

The identifiers of name attributes, of extensions and of extended key usages.
-/

namespace Signet.Der.Oid

def commonName : Oid := { content := [0x55, 0x04, 0x03] }

def country : Oid := { content := [0x55, 0x04, 0x06] }

def locality : Oid := { content := [0x55, 0x04, 0x07] }

def province : Oid := { content := [0x55, 0x04, 0x08] }

def organization : Oid := { content := [0x55, 0x04, 0x0a] }

def organizationalUnit : Oid := { content := [0x55, 0x04, 0x0b] }

def subjectKeyId : Oid := { content := [0x55, 0x1d, 0x0e] }

def keyUsage : Oid := { content := [0x55, 0x1d, 0x0f] }

def subjectAltName : Oid := { content := [0x55, 0x1d, 0x11] }

def basicConstraints : Oid := { content := [0x55, 0x1d, 0x13] }

def authorityKeyId : Oid := { content := [0x55, 0x1d, 0x23] }

def extendedKeyUsage : Oid := { content := [0x55, 0x1d, 0x25] }

def anyUsage : Oid := { content := [0x55, 0x1d, 0x25, 0x00] }

def serverAuth : Oid := { content := [0x2b, 0x06, 0x01, 0x05, 0x05, 0x07, 0x03, 0x01] }

def clientAuth : Oid := { content := [0x2b, 0x06, 0x01, 0x05, 0x05, 0x07, 0x03, 0x02] }

end Signet.Der.Oid
